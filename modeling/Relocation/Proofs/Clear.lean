import Relocation.Proofs.Freezing

/-!
# Trees without members of `import.meta`

`Item.ClearAll` says of a sequence that scanning it meets neither a member of `import.meta` nor a
block.  Freezing leaves such a sequence (`Split.clearAll_freezeFrom`), and it does not depend on
ranges (`Item.clearAll_unplacedAll`).
-/

namespace Relocation

namespace Item

open Split (metaAt? metaMember?)

mutual
/-- the sequence holds no member of `import.meta` and no block; `afterDot` says that a member dot
comes before it -/
def ClearAll (afterDot : Bool) : List Item → Prop
  | [] => True
  | i :: r => metaAt? afterDot i r = none ∧ Clear i ∧ ClearAll i.isMemberDot r

def Clear : Item → Prop
  | .leaf _ _ _ => True
  | .group _ items _ _ => ClearAll false items
  | .template _ rest _ => ClearRest rest
  | .block _ _ _ => False

def ClearRest : List (List Item × Text) → Prop
  | [] => True
  | (items, _) :: r => ClearAll false items ∧ ClearRest r
end

mutual
theorem outerBlocksAll_of_clearAll : ∀ {items : List Item} {afterDot : Bool},
    ClearAll afterDot items → outerBlocksAll items = []
  | [], _, _ => rfl
  | _ :: _, _, h => by
    obtain ⟨-, hi, hr⟩ := h
    rw [outerBlocksAll, outerBlocks_of_clear hi, outerBlocksAll_of_clearAll hr]
    rfl

theorem outerBlocks_of_clear : ∀ {i : Item}, Clear i → outerBlocks i = []
  | .leaf _ _ _, _ => rfl
  | .group _ items _ _, h => @outerBlocksAll_of_clearAll items false h
  | .template _ _ _, h => outerBlocksRest_of_clearRest h
  | .block _ _ _, h => h.elim

theorem outerBlocksRest_of_clearRest : ∀ {rest : List (List Item × Text)}, ClearRest rest →
    outerBlocksRest rest = []
  | [], _ => rfl
  | (_, _) :: _, h => by
    obtain ⟨hitems, hr⟩ := h
    rw [outerBlocksRest, outerBlocksAll_of_clearAll hitems, outerBlocksRest_of_clearRest hr]
    rfl
end

/-! ## ranges do not matter -/

@[simp] theorem isAnyName_unplaced (i : Item) : i.unplaced.isAnyName = i.isAnyName := by
  cases i with
  | leaf k => cases k <;> rfl
  | _ => rfl

theorem isSome_metaMember?_unplaced (r : List Item) :
    (metaMember? (unplacedAll r)).isSome = (metaMember? r).isSome := by
  rcases r with _ | ⟨dot, _ | ⟨word, _ | ⟨access, _ | ⟨member, r⟩⟩⟩⟩
  · rfl
  · rfl
  · rfl
  · simp only [unplacedAll, metaMember?, isPunct_unplaced, isName_unplaced, isMemberDot_unplaced,
      isGroup_unplaced]
    split_ifs <;> rfl
  · simp only [unplacedAll, metaMember?, isPunct_unplaced, isName_unplaced, isMemberDot_unplaced,
      isGroup_unplaced, isAnyName_unplaced]
    split_ifs <;> rfl

theorem metaAt?_unplaced {afterDot : Bool} {i : Item} {r : List Item} :
    metaAt? afterDot i.unplaced (unplacedAll r) = none ↔ metaAt? afterDot i r = none := by
  unfold metaAt?
  rw [isName_unplaced]
  split_ifs
  · rw [← Option.isNone_iff_eq_none, ← Option.isNone_iff_eq_none, ← Option.not_isSome,
      ← Option.not_isSome, isSome_metaMember?_unplaced]
  · exact Iff.rfl

mutual
theorem clearAll_unplacedAll : ∀ {items : List Item} {afterDot : Bool},
    ClearAll afterDot (unplacedAll items) ↔ ClearAll afterDot items
  | [], _ => Iff.rfl
  | i :: r, _ => by
    rw [unplacedAll, ClearAll, ClearAll, metaAt?_unplaced, clear_unplaced, isMemberDot_unplaced,
      clearAll_unplacedAll]

theorem clear_unplaced : ∀ {i : Item}, Clear i.unplaced ↔ Clear i
  | .leaf _ _ _ => Iff.rfl
  | .group _ items _ _ => @clearAll_unplacedAll items false
  | .template _ _ _ => clearRest_unplacedRest
  | .block _ _ _ => Iff.rfl

theorem clearRest_unplacedRest : ∀ {rest : List (List Item × Text)}, ClearRest (unplacedRest rest) ↔
    ClearRest rest
  | [] => Iff.rfl
  | (_, _) :: _ =>
    by rw [unplacedRest, ClearRest, ClearRest, clearAll_unplacedAll, clearRest_unplacedRest]
end

end Item

namespace Split

open Item (ClearAll Clear ClearRest)

/-! ## scanning -/

theorem kind_of_claimed {afterDot : Bool} {i : Item} {r : List Item} {own : List Split}
    (h : claimed afterDot i r = .ok own) : ∀ s ∈ own, s.kind = .staticImport := by
  intro s hs
  rcases claimed_eq_ok h with rfl | ⟨_, _, _, -, rfl, -⟩
  · cases hs
  · obtain ⟨_, _, -, -, rfl⟩ := mem_between.1 hs
    rfl

mutual
/-- in a clear sequence only specifiers are found -/
theorem kind_of_scanFrom : ∀ {items : List Item} {afterDot : Bool}, ClearAll afterDot items →
    ∀ found : List Split, scanFrom afterDot 0 items = .ok found →
      ∀ s ∈ found, s.kind = .staticImport
  | [], _, _ => by
    intro found h s hs
    rw [scanFrom] at h
    obtain rfl := Except.ok.inj h
    cases hs
  | i :: r, _, hclear => by
    intro found h s hs
    obtain ⟨hnone, hi, hr⟩ := hclear
    rcases scanFrom_cases h with ⟨n, last, rest, hmeta, -⟩ | ⟨own, inner, rest, -, hown, hinner,
      hrest, rfl⟩
    · rw [hnone] at hmeta
      cases hmeta
    · rcases List.mem_append.1 hs with hs | hs
      · rcases List.mem_append.1 hs with hs | hs
        · exact kind_of_claimed hown s hs
        · exact kind_of_scanInside hi inner hinner s hs
      · exact kind_of_scanFrom hr rest hrest s hs

theorem kind_of_scanInside : ∀ {i : Item}, Clear i → ∀ found : List Split,
    scanInside i = .ok found → ∀ s ∈ found, s.kind = .staticImport
  | .leaf _ _ _, _ => by
    intro found h s hs
    rw [scanInside] at h
    obtain rfl := Except.ok.inj h
    cases hs
  | .group _ _ _ _, hclear => by
    intro found h
    rw [scanInside] at h
    exact kind_of_scanFrom hclear found h
  | .template _ _ _, hclear => by
    intro found h
    rw [scanInside] at h
    exact kind_of_scanRest hclear found h
  | .block _ _ _, hclear => hclear.elim

theorem kind_of_scanRest : ∀ {rest : List (List Item × Text)}, ClearRest rest →
    ∀ found : List Split, scanRest rest = .ok found → ∀ s ∈ found, s.kind = .staticImport
  | [], _ => by
    intro found h s hs
    rw [scanRest] at h
    obtain rfl := Except.ok.inj h
    cases hs
  | (_, _) :: _, hclear => by
    intro found h s hs
    obtain ⟨hitems, hr⟩ := hclear
    obtain ⟨first, more, hfirst, hmore, rfl⟩ := scanRest_cons_eq_ok.1 h
    rcases List.mem_append.1 hs with hs | hs
    · exact kind_of_scanFrom hitems first hfirst s hs
    · exact kind_of_scanRest hr more hmore s hs
end

/-! ## freezing -/

variable {frozen : Split → Text} {known : List Split} {afterDot : Bool} {i j : Item}
  {r items more : List Item}

@[simp] theorem isPunct_freeze (i : Item) (t : Text) :
    (freeze frozen known i).isPunct t = i.isPunct t := by
  cases i with
  | leaf k => cases k <;> rfl
  | _ => rfl

@[simp] theorem isName_freeze (i : Item) (t : Text) :
    (freeze frozen known i).isName t = i.isName t := by
  cases i with
  | leaf k => cases k <;> rfl
  | _ => rfl

@[simp] theorem isAnyName_freeze (i : Item) : (freeze frozen known i).isAnyName = i.isAnyName := by
  cases i with
  | leaf k => cases k <;> rfl
  | _ => rfl

@[simp] theorem isMemberDot_freeze (i : Item) :
    (freeze frozen known i).isMemberDot = i.isMemberDot := by
  simp [Item.isMemberDot]

@[simp] theorem isGroup_freeze (i : Item) (b : Bracket) :
    (freeze frozen known i).isGroup b = i.isGroup b := by
  cases i with
  | group b' => simp only [freeze, Item.isGroup, Item.groupItems?]; split <;> rfl
  | _ => rfl

/-- what is no string was not put there by freezing -/
theorem freezeFrom_eq_cons (h : freezeFrom frozen known afterDot 0 items = j :: more)
    (hj : j.isString = false) : ∃ i r, items = i :: r ∧ j = freeze frozen known i ∧
    more = freezeFrom frozen known i.isMemberDot 0 r := by
  cases items with
  | nil => cases h
  | cons i r =>
    cases hmeta : metaAt? afterDot i r with
    | none =>
      rw [freezeFrom_other hmeta] at h
      obtain ⟨rfl, rfl⟩ := List.cons.inj h
      exact ⟨i, r, rfl, rfl, rfl⟩
    | some found =>
      rw [freezeFrom_member hmeta] at h
      obtain ⟨rfl, -⟩ := List.cons.inj h
      cases hj

/-- a member that is left behind `import` was one before -/
theorem isSome_metaMember?_of_freezeFrom
    (h : (metaMember? (freezeFrom frozen known afterDot 0 r)).isSome = true) :
    (metaMember? r).isSome = true := by
  generalize hitems : freezeFrom frozen known afterDot 0 r = items at h
  unfold metaMember? at h
  split at h
  · split_ifs at h with hmeta hdot hsquare
    · -- `.meta` and a member dot
      obtain ⟨hpoint, hword⟩ := Bool.and_eq_true_iff.1 hmeta
      obtain ⟨dot, _, rfl, rfl, hitems₁⟩ :=
        freezeFrom_eq_cons hitems (Item.isString_of_isPunct hpoint)
      obtain ⟨word, _, rfl, rfl, hitems₂⟩ :=
        freezeFrom_eq_cons hitems₁.symm (Item.isString_of_isName hword)
      obtain ⟨access, _, rfl, rfl, hitems₃⟩ :=
        freezeFrom_eq_cons hitems₂.symm (Item.isString_of_isMemberDot hdot)
      rw [isPunct_freeze, isName_freeze] at hmeta
      rw [isMemberDot_freeze] at hdot
      split at h
      · rw [Option.isSome_ite] at h
        have hstring := (Bool.or_eq_true_iff.1 h).elim Item.isString_of_isAnyName fun hmember =>
          Item.isString_of_isGroup (Bool.and_eq_true_iff.1 hmember).2
        obtain ⟨member, _, rfl, rfl, -⟩ := freezeFrom_eq_cons hitems₃.symm hstring
        rw [isAnyName_freeze, isPunct_freeze, isGroup_freeze] at h
        simp only [metaMember?, if_pos hmeta, if_pos hdot, if_pos h, Option.isSome_some]
      · cases h
    · -- `.meta` and a member in square brackets
      obtain ⟨hpoint, hword⟩ := Bool.and_eq_true_iff.1 hmeta
      obtain ⟨dot, _, rfl, rfl, hitems₁⟩ :=
        freezeFrom_eq_cons hitems (Item.isString_of_isPunct hpoint)
      obtain ⟨word, _, rfl, rfl, hitems₂⟩ :=
        freezeFrom_eq_cons hitems₁.symm (Item.isString_of_isName hword)
      obtain ⟨access, _, rfl, rfl, -⟩ :=
        freezeFrom_eq_cons hitems₂.symm (Item.isString_of_isGroup hsquare)
      rw [isPunct_freeze, isName_freeze] at hmeta
      rw [isMemberDot_freeze] at hdot
      rw [isGroup_freeze] at hsquare
      simp only [metaMember?, if_pos hmeta, if_neg hdot, if_pos hsquare, Option.isSome_some]
    · cases h
    · cases h
  · cases h

theorem metaAt?_freeze (h : metaAt? afterDot i r = none) :
    metaAt? afterDot (freeze frozen known i)
      (freezeFrom frozen known i.isMemberDot 0 r) = none := by
  unfold metaAt? at h ⊢
  rw [isName_freeze]
  split_ifs at h ⊢
  · rw [← Option.not_isSome_iff_eq_none] at h ⊢
    exact fun hsome => h (isSome_metaMember?_of_freezeFrom hsome)
  · rfl

mutual
/-- a sequence with strings in the place of its splits is clear, if scanning meets no block in it -/
theorem clearAll_freezeFrom : ∀ {items : List Item} (skip : Nat) (afterDot : Bool),
    (0 < skip → afterDot = false) → ∀ found : List Split, scanFrom afterDot skip items = .ok found →
    ClearAll afterDot (freezeFrom frozen known afterDot skip items)
  | [], skip, _, _ => by
    intro found _
    rw [freezeFrom]
    trivial
  | _ :: _, skip + 1, _, hdot => by
    intro found h
    obtain rfl := hdot (Nat.succ_pos skip)
    rw [scanFrom] at h
    rw [freezeFrom]
    exact clearAll_freezeFrom skip false (fun _ => rfl) found h
  | i :: r, 0, afterDot, _ => by
    intro found h
    rcases scanFrom_cases h with ⟨n, last, rest, hmeta, hrest, -⟩ |
      ⟨own, inner, rest, hmeta, -, hinner, hrest, -⟩
    · rw [freezeFrom_member hmeta]
      exact ⟨rfl, trivial, clearAll_freezeFrom n false (fun _ => rfl) rest hrest⟩
    · rw [freezeFrom_other hmeta]
      refine ⟨metaAt?_freeze hmeta, clear_freeze inner hinner, ?_⟩
      rw [isMemberDot_freeze]
      exact clearAll_freezeFrom 0 _ (fun h => absurd h (lt_irrefl 0)) rest hrest

theorem clear_freeze : ∀ {i : Item} (found : List Split), scanInside i = .ok found →
    Clear (freeze frozen known i)
  | .leaf _ _ _ => fun _ _ => trivial
  | .group _ _ _ _ => by
    intro found h
    rw [scanInside] at h
    rw [freeze]
    exact clearAll_freezeFrom 0 false (fun _ => rfl) found h
  | .template _ _ _ => by
    intro found h
    rw [scanInside] at h
    rw [freeze]
    exact clearRest_freezeRest found h
  | .block _ _ _ => by
    intro found h
    rw [scanInside] at h
    cases h

theorem clearRest_freezeRest : ∀ {rest : List (List Item × Text)} (found : List Split),
    scanRest rest = .ok found → ClearRest (freezeRest frozen known rest)
  | [] => fun _ _ => trivial
  | (_, _) :: _ => by
    intro found h
    obtain ⟨first, more, hfirst, hmore, -⟩ := scanRest_cons_eq_ok.1 h
    rw [freezeRest]
    exact ⟨clearAll_freezeFrom 0 false (fun _ => rfl) first hfirst, clearRest_freezeRest more hmore⟩
end

end Split

end Relocation
