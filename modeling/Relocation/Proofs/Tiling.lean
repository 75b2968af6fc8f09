import Relocation.Proofs.Faults
import Relocation.Proofs.Placement
import Relocation.Proofs.Rules

/-!
# Where splits lie

A split lies where the items lie that it was found in (`Split.within_scanFrom`).  A member of
`import.meta` is skipped once it is found, and behind most declarations nothing else claims their
specifier, so it lies outside of every other split (`Split.apart_of_scanFrom`).
-/

namespace Relocation

namespace Item

variable {i : Item}

theorem isString_of_isPunct {t : Text} (h : i.isPunct t = true) : i.isString = false := by
  obtain ⟨m, rfl⟩ := exists_of_isPunct h
  rfl

theorem isString_of_isMemberDot (h : i.isMemberDot = true) : i.isString = false :=
  (Bool.or_eq_true_iff.1 h).elim isString_of_isPunct isString_of_isPunct

theorem isString_of_isName {t : Text} (h : i.isName t = true) : i.isString = false := by
  obtain ⟨m, rfl⟩ := exists_of_isName h
  rfl

theorem isString_of_isGroup {b : Bracket} (h : i.isGroup b = true) : i.isString = false := by
  obtain ⟨items, m, c, rfl⟩ := exists_of_isGroup h
  rfl

theorem isString_of_isAnyName (h : i.isAnyName = true) : i.isString = false := by
  obtain ⟨t, m, rfl⟩ := exists_of_isAnyName h
  rfl

theorem isMemberDot_of_isGroup {b : Bracket} (h : i.isGroup b = true) : i.isMemberDot = false := by
  obtain ⟨items, m, c, rfl⟩ := exists_of_isGroup h
  rfl

theorem isMemberDot_of_isAnyName (h : i.isAnyName = true) : i.isMemberDot = false := by
  obtain ⟨t, m, rfl⟩ := exists_of_isAnyName h
  rfl

end Item

namespace Split

/-! ## what a declaration claims -/

variable {i s : Item} {r : List Item}

theorem leadingString?_eq_some (h : leadingString? r = some s) : s.isString = true ∧
    ∃ post, r = s :: post := by
  unfold leadingString? at h
  split at h
  · split_ifs at h with hs
    obtain rfl := Option.some.inj h
    exact ⟨hs, _, rfl⟩
  · cases h

theorem leadingFrom?_eq_some (h : leadingFrom? r = some s) :
    s.isString = true ∧ ∃ word post, word.isName "from" = true ∧ r = word :: s :: post := by
  unfold leadingFrom? at h
  split at h
  · split_ifs at h with hw
    obtain ⟨hs, post, rfl⟩ := leadingString?_eq_some h
    exact ⟨hs, _, post, hw, rfl⟩
  · cases h

theorem specifier?_of_not_keyword (hi : i.isName "import" = false)
    (he : i.isName "export" = false) : specifier? i r = none := by
  simp [specifier?, hi, he]

/-- no item before the specifier claims it -/
def Unclaimed (s : Item) (post : List Item) : List Item → Prop
  | [] => True
  | j :: pre => specifier? j (pre ++ s :: post) = none ∧ Unclaimed s post pre

theorem fromClause?_eq_some (h : fromClause? r = some s) :
    s.isString = true ∧ ∃ pre post, r = pre ++ s :: post ∧ Unclaimed s post pre := by
  induction r with
  | nil => cases h
  | cons i r ih =>
    rw [fromClause?] at h
    split_ifs at h with hstop hfrom
    · obtain ⟨hs, post, rfl⟩ := leadingString?_eq_some h
      simp only [Bool.or_eq_true, not_or, Bool.not_eq_true] at hstop
      exact ⟨hs, [i], post, rfl, ⟨specifier?_of_not_keyword hstop.1.2 hstop.2, trivial⟩⟩
    · obtain ⟨hs, pre, post, rfl, hpre⟩ := ih h
      simp only [Bool.or_eq_true, not_or, Bool.not_eq_true] at hstop
      exact ⟨hs, i :: pre, post, rfl, ⟨specifier?_of_not_keyword hstop.1.2 hstop.2, hpre⟩⟩

theorem importedFrom?_eq_some (h : importedFrom? r = some s) :
    s.isString = true ∧ ∃ pre post, r = pre ++ s :: post ∧ Unclaimed s post pre := by
  cases r with
  | nil => cases h
  | cons i r =>
    rw [importedFrom?] at h
    split_ifs at h with hcall hs
    · obtain rfl := Option.some.inj h
      exact ⟨hs, [], r, rfl, trivial⟩
    · exact fromClause?_eq_some h

/-- a name other than the keywords claims nothing -/
theorem specifier?_of_isName {word : Item} {t : Text} (hw : word.isName t = true)
    (hi : t ≠ Text.ofString "import") (he : t ≠ Text.ofString "export") :
    specifier? word r = none := by
  refine specifier?_of_not_keyword ?_ ?_
  · by_contra h
    exact hi (Item.eq_of_isName hw (Bool.eq_true_of_not_eq_false h))
  · by_contra h
    exact he (Item.eq_of_isName hw (Bool.eq_true_of_not_eq_false h))

theorem specifier?_of_isPunct {p : Text} (hp : i.isPunct p = true) : specifier? i r = none := by
  unfold Item.isPunct at hp
  split at hp
  · rfl
  · cases hp

theorem specifier?_of_isGroup {b : Bracket} (hg : i.isGroup b = true) : specifier? i r = none := by
  cases i with
  | group => rfl
  | _ => cases hg

theorem reexportedFrom?_eq_none {word : Item} {t : Text} (hw : word.isName t = true) :
    reexportedFrom? (word :: r) = none := by
  unfold Item.isName at hw
  split at hw
  · rfl
  · cases hw

theorem reexportedFrom?_eq_some (h : reexportedFrom? r = some s) :
    s.isString = true ∧ ∃ pre post, r = pre ++ s :: post ∧
      (s.isLocalString = true → Item.startsWith Item.reclaimTests r = false →
        Unclaimed s post pre) := by
  cases r with
  | nil => cases h
  | cons i r =>
    simp only [reexportedFrom?] at h
    split_ifs at h with hstar hbrace
    · cases r with
      | nil => cases h
      | cons word r =>
        simp only at h
        split_ifs at h with has
        · cases r with
          | nil => cases h
          | cons name r =>
            obtain ⟨hs, clause, post, hfrom, hr⟩ := leadingFrom?_eq_some h
            obtain rfl : r = clause :: s :: post := hr
            refine ⟨hs, [i, word, name, clause], post, rfl, fun hlocal htests =>
              ⟨specifier?_of_isPunct hstar, specifier?_of_isName has (by decide) (by decide), ?_,
                specifier?_of_isName hfrom (by decide) (by decide), trivial⟩⟩
            -- the name may be a keyword; as `export` it finds no specifier behind it, as `import`
            -- it is ruled out
            cases hi : name.isName "import" with
            | true =>
              simp [Item.startsWith, Item.reclaimTests, hstar, has, hi, hfrom, hlocal] at htests
            | false => simp [specifier?, hi, reexportedFrom?_eq_none hfrom]
        · obtain ⟨hs, clause, post, hfrom, hr⟩ := leadingFrom?_eq_some h
          obtain ⟨rfl, rfl⟩ := List.cons.inj hr
          refine ⟨hs, [i, word], post, rfl, fun _ _ => ⟨specifier?_of_isPunct hstar, ?_, trivial⟩⟩
          exact specifier?_of_isName hfrom (by decide) (by decide)
    · obtain ⟨hs, word, post, hfrom, rfl⟩ := leadingFrom?_eq_some h
      refine ⟨hs, [i, word], post, rfl, fun _ _ => ⟨specifier?_of_isGroup hbrace, ?_, trivial⟩⟩
      exact specifier?_of_isName hfrom (by decide) (by decide)

theorem specifier?_eq_some (h : specifier? i r = some s) :
    s.isString = true ∧ ∃ pre post, r = pre ++ s :: post ∧
      (s.isLocalString = true → (i.isName "export" && Item.startsWith Item.reclaimTests r) = false →
        Unclaimed s post pre) := by
  unfold specifier? at h
  split_ifs at h with hi he
  · obtain ⟨hs, pre, post, rfl, hpre⟩ := importedFrom?_eq_some h
    exact ⟨hs, pre, post, rfl, fun _ _ => hpre⟩
  · obtain ⟨hs, pre, post, rfl, hpre⟩ := reexportedFrom?_eq_some h
    refine ⟨hs, pre, post, rfl, fun hlocal htests => hpre hlocal ?_⟩
    rwa [he, Bool.true_and] at htests

/-! ## members of `import.meta` -/

/-- a member of `import.meta` is an index, a dot and a name, or `?.` and an index -/
theorem metaMember?_shape {n : Nat} {last : Item} (h : metaMember? r = some (n, last)) :
    ∃ dot property access post, r = dot :: property :: (access ++ last :: post) ∧
    n = access.length + 3 ∧
      dot.isPunct "." = true ∧ property.isName "meta" = true ∧
      (access = [] ∧ last.isGroup .square = true ∨ ∃ point, access = [point] ∧
        point.isMemberDot = true ∧
        (last.isAnyName = true ∨ point.isPunct "?." = true ∧ last.isGroup .square = true)) := by
  unfold metaMember? at h
  split at h
  · rename_i dot property point more
    split_ifs at h with hmeta hpoint hsquare
    · split at h
      · rename_i member post
        split_ifs at h with hmember
        obtain ⟨rfl, rfl⟩ := Prod.mk.inj (Option.some.inj h)
        obtain ⟨hdot, hproperty⟩ := Bool.and_eq_true_iff.1 hmeta
        simp only [Bool.or_eq_true, Bool.and_eq_true] at hmember
        exact ⟨dot, property, [point], post, rfl, rfl, hdot, hproperty,
          .inr ⟨point, rfl, hpoint, hmember⟩⟩
      · cases h
    · obtain ⟨rfl, rfl⟩ := Prod.mk.inj (Option.some.inj h)
      obtain ⟨hdot, hproperty⟩ := Bool.and_eq_true_iff.1 hmeta
      exact ⟨dot, property, [], more, rfl, rfl, hdot, hproperty, .inl ⟨rfl, hsquare⟩⟩
  · cases h

theorem metaMember?_eq_some {n : Nat} {last : Item} (h : metaMember? r = some (n, last)) :
    last.isMemberDot = false ∧ ∃ init, r = init ++ last :: r.drop n ∧ n = init.length + 1 ∧
      ∀ j ∈ init ++ [last], j.isString = false := by
  obtain ⟨dot, property, access, post, rfl, rfl, hdot, hproperty, hmember⟩ := metaMember?_shape h
  have hlast : last.isString = false ∧ last.isMemberDot = false := by
    rcases hmember with ⟨-, hsquare⟩ | ⟨point, -, -, hname | ⟨-, hsquare⟩⟩
    · exact ⟨Item.isString_of_isGroup hsquare, Item.isMemberDot_of_isGroup hsquare⟩
    · exact ⟨Item.isString_of_isAnyName hname, Item.isMemberDot_of_isAnyName hname⟩
    · exact ⟨Item.isString_of_isGroup hsquare, Item.isMemberDot_of_isGroup hsquare⟩
  have haccess : ∀ j ∈ access, j.isString = false := by
    rcases hmember with ⟨rfl, -⟩ | ⟨point, rfl, hpoint, -⟩
    · exact fun j hj => by cases hj
    · exact List.forall_mem_singleton.2 (Item.isString_of_isMemberDot hpoint)
  refine ⟨hlast.2,
    dot :: property ::
    access, by simp, rfl, List.forall_mem_append.2 ⟨?_, List.forall_mem_singleton.2 hlast.1⟩⟩
  exact List.forall_mem_cons.2 ⟨Item.isString_of_isPunct hdot, List.forall_mem_cons.2
    ⟨Item.isString_of_isName hproperty, haccess⟩⟩

/-- behind `import` that is no member: its member of `import.meta` -/
def metaAt? (afterDot : Bool) (i : Item) (r : List Item) : Option (Nat × Item) :=
  if i.isName "import" && !afterDot then metaMember? r else none

theorem metaAt?_eq_some {afterDot : Bool} {n : Nat} {last : Item}
    (h : metaAt? afterDot i r = some (n, last)) :
    i.isName "import" = true ∧ metaMember? r = some (n, last) := by
  unfold metaAt? at h
  split_ifs at h with himport
  exact ⟨(Bool.and_eq_true_iff.1 himport).1, h⟩

/-! ## where splits lie -/

/-- the split is a range between two offsets, of a kind that scanning finds -/
structure Within (lo hi : Nat) (s : Split) : Prop where
  kind : ∀ label, s.kind ≠ .other label
  start : lo ≤ s.start
  lt : s.start < s.stop
  stop : s.stop ≤ hi

/-- one of the splits ends before the other begins -/
def Apart (a b : Split) : Prop := a.stop ≤ b.start ∨ b.stop ≤ a.start

variable {lo lo' hi hi' mid : Nat} {t : Split} {splits : List Split} {afterDot : Bool} {skip : Nat}

theorem Within.mono (h : t.Within lo hi) (hlo : lo' ≤ lo) (hhi : hi ≤ hi') : t.Within lo' hi' := by
  obtain ⟨h₁, h₂, h₃, h₄⟩ := h
  exact ⟨h₁, by omega, h₃, by omega⟩

theorem apart_of_within {t' : Split} (h : t.Within lo mid) (h' : t'.Within mid hi) : Apart t t' :=
  .inl (h.stop.trans h'.start)

open Item (Placed PlacedAll PlacedRest placed_le placedAll_le placedRest_le range_of_placed)

theorem mem_between {first last : Item} {kind : Kind} : t ∈ between kind first last ↔
    ∃ a b, first.range? = some a ∧ last.range? = some b ∧ t = ⟨kind, a.start, b.stop⟩ := by
  unfold between
  cases first.range? <;> cases last.range? <;> simp

theorem within_between_self (h : Placed lo hi s) :
    ∀ t ∈ between .staticImport s s, t.Within lo hi := by
  intro t ht
  obtain ⟨a, b, ha, hb, rfl⟩ := mem_between.1 ht
  obtain ⟨range, hr, h₁, h₂, h₃⟩ := range_of_placed h
  rw [hr] at ha hb
  obtain rfl := Option.some.inj ha
  obtain rfl := Option.some.inj hb
  exact ⟨fun label => by simp, by simp only; omega, by simp only; omega, by simp only; omega⟩

/-- a split from one item to a later one ends before what stands behind both -/
theorem within_between {init more : List Item} {last : Item} (hfirst : Placed lo mid i)
    (hr : PlacedAll mid hi (init ++ last :: more)) :
    ∃ stop, mid ≤ stop ∧
    PlacedAll stop hi more ∧ ∀ t ∈ between .metaUrl i last, t.Within lo stop := by
  obtain ⟨start, stop, hinit, hlast, hrest⟩ := Item.exists_placed_of_middle hr
  have hstart := placedAll_le hinit
  have hstop := placed_le hlast
  refine ⟨stop, by omega, hrest, fun t ht => ?_⟩
  obtain ⟨a, b, ha, hb, rfl⟩ := mem_between.1 ht
  obtain ⟨first, hf, h₁, h₂, h₃⟩ := range_of_placed hfirst
  obtain ⟨range, hl, h₄, h₅, h₆⟩ := range_of_placed hlast
  rw [hf] at ha
  rw [hl] at hb
  obtain rfl := Option.some.inj ha
  obtain rfl := Option.some.inj hb
  exact ⟨fun label => by simp, by simp only; omega, by simp only; omega, by simp only; omega⟩

theorem ofSpecifier_eq_ok (h : ofSpecifier s = .ok splits) :
    splits = [] ∨ s.isLocalString = true ∧ splits = between .staticImport s s := by
  unfold ofSpecifier at h
  split at h
  · exact .inl (Except.ok.inj h).symm
  · rename_i text htext
    obtain ⟨value, hvalue, h⟩ := Except.bind_eq_ok.1 h
    obtain rfl := Except.ok.inj h
    split_ifs with hlocal
    · exact .inr ⟨by simp [Item.isLocalString, htext, hvalue, Except.toOption, hlocal], rfl⟩
    · exact .inl rfl

/-- what is claimed is nothing, or a specifier further on; nothing else claims it, but for one form
of declaration -/
theorem claimed_eq_ok (h : claimed afterDot i r = .ok splits) :
    splits = [] ∨ ∃ s pre post, r = pre ++ s :: post ∧ splits = between .staticImport s s ∧
    s.isString = true ∧
      ((!afterDot && i.isName "export" && Item.startsWith Item.reclaimTests r) = false →
        Unclaimed s post pre) := by
  unfold claimed at h
  split at h
  · rename_i s hspec
    split_ifs at hspec with hdot
    rcases ofSpecifier_eq_ok h with rfl | ⟨hlocal, rfl⟩
    · exact .inl rfl
    · obtain ⟨hstring, pre, post, rfl, hpre⟩ := specifier?_eq_some hspec
      refine .inr ⟨s, pre, post, rfl, rfl, hstring, fun hs => hpre hlocal ?_⟩
      rwa [Bool.eq_false_iff.2 hdot, Bool.not_false, Bool.true_and] at hs
  · exact .inl (Except.ok.inj h).symm

theorem scanRest_cons_eq_ok {q : Text} {rest : List (List Item × Text)} :
    scanRest ((items, q) :: rest) = .ok splits ↔
      ∃ first more, scanFrom false 0 items = .ok first ∧ scanRest rest = .ok more ∧
      splits = first ++ more := by
  rw [scanRest]
  constructor
  · intro h
    obtain ⟨first, hfirst, h⟩ := Except.bind_eq_ok.1 h
    obtain ⟨more, hmore, h⟩ := Except.bind_eq_ok.1 h
    exact ⟨first, more, hfirst, hmore, (Except.ok.inj h).symm⟩
  · rintro ⟨first, more, hfirst, hmore, rfl⟩
    exact Except.bind_eq_ok.2 ⟨first, hfirst, Except.bind_eq_ok.2 ⟨more, hmore, rfl⟩⟩

/-- what scanning does with an item in front, and whether the item begins a member of
`import.meta` -/
theorem scanFrom_cases (h : scanFrom afterDot 0 (i :: r) = .ok splits) :
    (∃ n last rest, metaAt? afterDot i r = some (n, last) ∧ scanFrom false n r = .ok rest ∧
      splits = between .metaUrl i last ++ rest) ∨
    ∃ own inner rest, metaAt? afterDot i r = none ∧ claimed afterDot i r = .ok own ∧
    scanInside i = .ok inner ∧
      scanFrom i.isMemberDot 0 r = .ok rest ∧ splits = own ++ inner ++ rest := by
  rw [scanFrom_cons, ← metaAt?] at h
  split at h
  · rename_i n last hmeta
    obtain ⟨rest, hrest, h⟩ := Except.bind_eq_ok.1 h
    exact .inl ⟨n, last, rest, hmeta, hrest, (Except.ok.inj h).symm⟩
  · rename_i hmeta
    obtain ⟨own, hown, h⟩ := Except.bind_eq_ok.1 h
    obtain ⟨inner, hinner, h⟩ := Except.bind_eq_ok.1 h
    obtain ⟨rest, hrest, h⟩ := Except.bind_eq_ok.1 h
    exact .inr ⟨own, inner, rest, hmeta, hown, hinner, hrest, (Except.ok.inj h).symm⟩

mutual
/-- every split lies where the items lie that it was found in -/
theorem within_scanFrom : ∀ {items : List Item} {lo hi : Nat} (skip : Nat),
    PlacedAll lo hi (items.drop skip) → ∀ (afterDot : Bool) (splits : List Split),
    scanFrom afterDot skip items = .ok splits → ∀ t ∈ splits, t.Within lo hi
  | [], _, _, _, _ => by
    intro afterDot splits h t ht
    rw [scanFrom] at h
    obtain rfl := Except.ok.inj h
    cases ht
  | i :: r, lo, hi, skip + 1, hp => by
    intro afterDot splits h
    rw [scanFrom] at h
    exact within_scanFrom skip hp false splits h
  | i :: r, lo, hi, 0, hp => by
    intro afterDot splits h
    have ih :
        ∀ (lo skip : Nat), PlacedAll lo hi (r.drop skip) →
        ∀ (afterDot : Bool) (splits : List Split), scanFrom afterDot skip r = .ok splits →
        ∀ t ∈ splits, t.Within lo hi := fun lo skip h => within_scanFrom skip h
    obtain ⟨mid, hfirst, hr⟩ := hp
    have hlo := placed_le hfirst
    intro t ht
    rcases scanFrom_cases h with ⟨n, last, rest, hmeta, hrest, rfl⟩ |
      ⟨own, inner, rest, -, hown, hinner, hrest, rfl⟩
    · obtain ⟨-, init, hr', -, -⟩ := metaMember?_eq_some (metaAt?_eq_some hmeta).2
      rw [hr'] at hr
      obtain ⟨stop, hstop, hdrop, hbetween⟩ := within_between hfirst hr
      rcases List.mem_append.1 ht with ht | ht
      · exact (hbetween t ht).mono (Nat.le_refl lo) (placedAll_le hdrop)
      · exact (ih stop n hdrop false rest hrest t ht).mono (by omega) (Nat.le_refl hi)
    · rcases List.mem_append.1 ht with ht | ht
      · rcases List.mem_append.1 ht with ht | ht
        · rcases claimed_eq_ok hown with rfl | ⟨s, pre, post, hr', rfl, -, -⟩
          · cases ht
          · rw [hr'] at hr
            obtain ⟨start, stop, hpre, hs, hpost⟩ := Item.exists_placed_of_middle hr
            have := placedAll_le hpre
            exact (within_between_self hs t ht).mono (by omega) (placedAll_le hpost)
        · exact (within_scanInside hfirst inner hinner t ht).mono (Nat.le_refl lo) (placedAll_le hr)
      · exact (ih mid 0 hr _ rest hrest t ht).mono hlo (Nat.le_refl hi)

theorem within_scanInside : ∀ {i : Item} {lo hi : Nat}, Placed lo hi i → ∀ splits : List Split,
    scanInside i = .ok splits → ∀ t ∈ splits, t.Within lo hi
  | .leaf _ _ _, _, _, _ => by
    intro splits h t ht
    rw [scanInside] at h
    obtain rfl := Except.ok.inj h
    cases ht
  | .group _ _ _ _, _, _, hp => by
    intro splits h t ht
    obtain ⟨range, -, h₁, -, h₂, hp⟩ := hp
    rw [scanInside] at h
    exact (within_scanFrom 0 hp false splits h t ht).mono h₁ h₂
  | .template _ _ _, _, _, hp => by
    intro splits h t ht
    obtain ⟨range, -, h₁, -, h₂, hp⟩ := hp
    rw [scanInside] at h
    exact (within_scanRest hp splits h t ht).mono h₁ h₂
  | .block _ _ _, _, _, _ => by
    intro splits h
    rw [scanInside] at h
    cases h

theorem within_scanRest : ∀ {rest : List (List Item × Text)} {lo hi : Nat}, PlacedRest lo hi rest →
    ∀ splits : List Split, scanRest rest = .ok splits → ∀ t ∈ splits, t.Within lo hi
  | [], _, _, _ => by
    intro splits h t ht
    rw [scanRest] at h
    obtain rfl := Except.ok.inj h
    cases ht
  | (items, _) :: r, lo, hi, hp => by
    intro splits h t ht
    obtain ⟨mid, hitems, hr⟩ := hp
    obtain ⟨first, more, hfirst, hmore, rfl⟩ := scanRest_cons_eq_ok.1 h
    rcases List.mem_append.1 ht with ht | ht
    · have := placedRest_le hr
      exact (within_scanFrom 0 hitems false first hfirst t ht).mono (Nat.le_refl lo) this
    · exact (within_scanRest hr more hmore t ht).mono (placedAll_le hitems) (Nat.le_refl hi)
end

/-! ## specifiers that are claimed once -/

/-- what ends before an item of a sequence is part of what comes before the item -/
theorem exists_of_middle {α : Type} {a b c d : List α} {x y : α} (h : a ++ x :: b = c ++ y :: d)
    (hx : x ∉ c ++ [y]) : ∃ e, a = c ++ y :: e := by
  rw [show c ++ y :: d = (c ++ [y]) ++ d by simp] at h
  rcases List.append_eq_append_iff.1 h with ⟨e, hcy, he⟩ | ⟨e, ha, -⟩
  · cases e with
    | nil => exact ⟨[], by simpa using hcy.symm⟩
    | cons z e =>
      obtain ⟨rfl, -⟩ := List.cons.inj he
      exact absurd (by rw [hcy]; simp) hx
  · exact ⟨e, by simpa using ha⟩

/-- a string that nothing before it claims lies outside of every split -/
theorem apart_of_scanFrom {pre post : List Item} {start stop : Nat} (hs : s.isString = true)
    (hplace : Placed start stop s) (hpost : PlacedAll stop hi post) : ∀ {lo skip : Nat},
    PlacedAll lo start pre → Unclaimed s post pre →
    skip ≤ pre.length → ∀ (afterDot : Bool) (splits : List Split),
    scanFrom afterDot skip (pre ++ s :: post) = .ok splits →
    ∀ t ∈ splits, t.Within lo start ∨ t.Within stop hi := by
  induction pre with
  | nil =>
    intro lo skip _ _ hskip afterDot splits h t ht
    obtain ⟨text, m, rfl⟩ := Item.exists_of_isString hs
    obtain rfl : skip = 0 := Nat.le_zero.1 hskip
    rcases scanFrom_cases h with ⟨n, last, rest, hmeta, -⟩ | ⟨own, inner, rest, -, hown, hinner,
      hrest, rfl⟩
    · cases hmeta
    · obtain rfl : [] = own := by
        unfold claimed at hown
        cases afterDot <;> exact Except.ok.inj hown
      obtain rfl : [] = inner := Except.ok.inj hinner
      exact .inr (within_scanFrom 0 hpost _ rest hrest t ht)
  | cons j pre ih =>
    intro lo skip hpre hclaims hskip afterDot splits h t ht
    obtain ⟨mid, hj, hpre⟩ := hpre
    obtain ⟨hclaim, hclaims⟩ := hclaims
    have hlo := placed_le hj
    have hmid := placedAll_le hpre
    have ih : ∀ skip ≤ pre.length, ∀ (afterDot : Bool) (splits : List Split),
        scanFrom afterDot skip (pre ++ s :: post) = .ok splits → ∀ t ∈ splits, t.Within lo start ∨
        t.Within stop hi := by
      intro skip hskip afterDot splits h t ht
      exact (ih hpre hclaims hskip afterDot splits h t ht).imp_left fun h =>
        h.mono hlo (Nat.le_refl start)
    rw [List.cons_append] at h
    cases skip with
    | succ skip => exact ih skip (Nat.le_of_succ_le_succ hskip) false splits h t ht
    | zero =>
      rcases scanFrom_cases h with ⟨n, last, rest, hmeta, hrest, rfl⟩ |
        ⟨own, inner, rest, -, hown, hinner, hrest, rfl⟩
      · obtain ⟨-, init, hinit, rfl, hstrings⟩ := metaMember?_eq_some (metaAt?_eq_some hmeta).2
        obtain ⟨more, rfl⟩ : ∃ more, pre = init ++ last :: more :=
          exists_of_middle hinit fun hmem => by
          rw [hstrings s hmem] at hs
          cases hs
        obtain ⟨end', -, hmore, hbetween⟩ := within_between hj hpre
        rcases List.mem_append.1 ht with ht | ht
        · exact .inl ((hbetween t ht).mono (Nat.le_refl lo) (placedAll_le hmore))
        · exact ih _ (by simp) false rest hrest t ht
      · have hown : own = [] := by
          unfold claimed at hown
          rw [hclaim] at hown
          cases afterDot <;> exact (Except.ok.inj hown).symm
        subst hown
        rcases List.mem_append.1 ht with ht | ht
        · exact .inl ((within_scanInside hj inner hinner t ht).mono (Nat.le_refl lo) hmid)
        · exact ih 0 (Nat.zero_le _) _ rest hrest t ht

theorem Apart.symm {a b : Split} (h : Apart a b) : Apart b a := Or.symm h

theorem pairwise_between {first last : Item} {kind : Kind} :
    (between kind first last).Pairwise Apart := by
  unfold between
  split
  · exact List.pairwise_singleton _ _
  · exact .nil

end Split

end Relocation
