import Relocation.Proofs.Freezing
import Relocation.Proofs.Nesting

/-!
# What scanning comes to

Scanning skips the members of `import.meta` that it finds.  `Split.arrival` is the state in which it
comes to an item: a keyword that names no member is never skipped (`arrival_of_keyword`), and what
has brackets is skipped just when they are those of a member (`arrival_eq_zero_iff`).  So the splits
of every sequence outside of such brackets are among those that are found
(`exists_scanFrom_of_encloses`).
-/

namespace Relocation

namespace Split

open Item (Encloses)

variable {before rest r items seq body : List Item} {i last : Item} {afterDot : Bool} {skip n : Nat}
  {found splits : List Split}

/-! ## members with brackets -/

/-- `import.meta` stands at the end of the items, and that `import` names no member -/
def EndsInMeta (items : List Item) : Prop :=
  ∃ before word dot property, items = before ++ [word, dot, property] ∧
    before.getLast?.any (·.isMemberDot) = false ∧ word.isName "import" = true ∧
    dot.isPunct "." = true ∧ property.isName "meta" = true

/-- the item is the `[…]` of a member of `import.meta` -/
def IsBracketMember (before : List Item) (i : Item) : Prop :=
  i.isGroup .square = true ∧
    (EndsInMeta before ∨ ∃ init access, before = init ++ [access] ∧ access.isPunct "?." = true ∧
      EndsInMeta init)

theorem metaAt?_of_afterDot : metaAt? true i r = none := by
  rw [metaAt?, Bool.not_true, Bool.and_false]
  rfl

theorem metaAt?_of_not_import (h : i.isName "import" = false) : metaAt? afterDot i r = none := by
  rw [metaAt?, h]
  rfl

/-! ## the state of scanning -/

/-- the state in which scanning comes to the rest of a sequence: whether a member dot comes before
it, and how many of its items belong to a split already -/
def arrival (afterDot : Bool) (skip : Nat) : (before rest : List Item) → Bool × Nat
  | [], _ => (afterDot, skip)
  | i :: before, rest =>
    match skip with
    | skip + 1 => arrival false skip before rest
    | 0 =>
      match metaAt? afterDot i (before ++ rest) with
      | some (n, _) => arrival false n before rest
      | none => arrival i.isMemberDot 0 before rest

theorem arrival_append {a b : List Item} : arrival afterDot skip (a ++ b) rest =
    arrival (arrival afterDot skip a (b ++ rest)).1 (arrival afterDot skip a (b ++ rest)).2
    b rest := by
  induction a generalizing afterDot skip with
  | nil => rfl
  | cons i a ih =>
    cases skip with
    | succ skip => exact ih
    | zero =>
      simp only [List.cons_append, arrival, List.append_assoc]
      cases metaAt? afterDot i (a ++ (b ++ rest)) with
      | none => exact ih
      | some member => exact ih

/-- what is found from there on is part of what is found in all -/
theorem exists_scanFrom_arrival (h : scanFrom afterDot skip (before ++ rest) = .ok found) :
    ∃ splits, scanFrom (arrival afterDot skip before rest).1
        (arrival afterDot skip before rest).2 rest = .ok splits ∧
      splits.Sublist found := by
  induction before generalizing afterDot skip found with
  | nil => exact ⟨found, h, List.Sublist.refl found⟩
  | cons i before ih =>
    cases skip with
    | succ skip => exact ih h
    | zero =>
      rw [List.cons_append] at h
      rw [arrival]
      rcases scanFrom_cases h with ⟨n, last, behind, hmeta, hrest, rfl⟩ |
        ⟨own, inner, behind, hmeta, -, -, hrest, rfl⟩
      · obtain ⟨splits, hsplits, hsub⟩ := ih hrest
        rw [hmeta]
        exact ⟨splits, hsplits, hsub.trans (List.sublist_append_right _ _)⟩
      · obtain ⟨splits, hsplits, hsub⟩ := ih hrest
        rw [hmeta]
        exact ⟨splits, hsplits, hsub.trans (List.sublist_append_right _ _)⟩

/-- what the state says of the items before it: nothing is skipped, or a member of `import.meta` is
under way -/
inductive Under (before rest : List Item) : Bool → Nat → Prop
  | free : Under before rest (before.getLast?.any (·.isMemberDot)) 0
  | member {outer init : List Item} {word last : Item} {skip : Nat} :
    before = outer ++ word :: init →
    outer.getLast?.any (·.isMemberDot) = false → word.isName "import" = true →
    metaMember? (init ++ rest) = some (init.length + (skip + 1), last) →
    Under before rest false (skip + 1)

theorem Under.step (h : Under before (i :: r) afterDot skip) :
    Under (before ++ [i]) r (arrival afterDot skip [i] r).1 (arrival afterDot skip [i] r).2 := by
  have hlast : (before ++ [i]).getLast?.any (·.isMemberDot) = i.isMemberDot := by simp
  cases h with
  | free =>
    simp only [arrival, List.nil_append]
    cases hmeta : metaAt? (before.getLast?.any (·.isMemberDot)) i r with
    | none => exact hlast ▸ .free
    | some member =>
      obtain ⟨n, last⟩ := member
      obtain ⟨hword, hmember⟩ := metaAt?_eq_some hmeta
      obtain ⟨-, init, -, rfl, -⟩ := metaMember?_eq_some hmember
      have hdot : before.getLast?.any (·.isMemberDot) = false := by
        by_contra hdot
        rw [Bool.not_eq_false] at hdot
        rw [hdot, metaAt?_of_afterDot] at hmeta
        cases hmeta
      exact .member rfl hdot hword (by simpa using hmember)
  | @member outer init word last skip hbefore hdot hword hmember =>
    rw [arrival, arrival]
    cases skip with
    | zero =>
      -- the item is the last one of the member
      obtain ⟨hend, init', hinit, hlength, -⟩ := metaMember?_eq_some hmember
      obtain ⟨-, hinit⟩ := List.append_inj hinit (by omega)
      obtain ⟨rfl, -⟩ := List.cons.inj hinit
      rw [← hend, ← hlast]
      exact .free
    | succ skip =>
      refine @Under.member _ _ outer (init ++ [i]) word last skip (by simp [hbefore]) hdot hword ?_
      rw [List.append_assoc, List.singleton_append, hmember, List.length_append]
      simp only [Option.some.injEq, Prod.mk.injEq, List.length_singleton, and_true]
      omega

theorem Under.run {ahead : List Item} (h : Under ahead (before ++ rest) afterDot skip) :
    Under (ahead ++ before) rest (arrival afterDot skip before rest).1
      (arrival afterDot skip before rest).2 := by
  induction before generalizing ahead afterDot skip with
  | nil => simpa [arrival] using h
  | cons i before ih =>
    rw [← List.singleton_append, arrival_append, ← List.append_assoc]
    exact ih h.step

theorem under_arrival (before rest : List Item) :
    Under before rest (arrival false 0 before rest).1 (arrival false 0 before rest).2 :=
  Under.run (Under.free : Under [] (before ++ rest) false 0)

/-- only a part of a member is skipped -/
theorem part_of_under (h : Under before (i :: r) afterDot (skip + 1)) :
    (∃ p, i.isPunct p = true) ∨ i.isName "meta" = true ∨
      (i.isAnyName = true ∧ before.getLast?.any (·.isMemberDot) = true) ∨
      IsBracketMember before i := by
  cases h with
  | @member outer init word last _ hbefore hdot hword hmember =>
  obtain ⟨dot, property, access, post, hr, hlength, hpoint, hproperty, haccess⟩ :=
    metaMember?_shape hmember
  cases init with
  | nil =>
    obtain ⟨rfl, -⟩ := List.cons.inj hr
    exact .inl ⟨_, hpoint⟩
  | cons a init =>
  rw [List.cons_append, List.cons.injEq] at hr
  obtain ⟨rfl, hr⟩ := hr
  cases init with
  | nil =>
    obtain ⟨rfl, -⟩ := List.cons.inj hr
    exact .inr (.inl hproperty)
  | cons b init =>
  rw [List.cons_append, List.cons.injEq] at hr
  obtain ⟨rfl, hr⟩ := hr
  simp only [List.length_cons] at hlength
  rcases haccess with ⟨rfl, hsquare⟩ | ⟨point, rfl, haccess, hend⟩
  · obtain rfl : init = [] := by
      rw [List.length_nil] at hlength
      exact List.eq_nil_of_length_eq_zero (by omega)
    obtain ⟨rfl, -⟩ := List.cons.inj hr
    exact .inr (.inr (.inr ⟨hsquare, .inl ⟨outer, word, a, b, hbefore, hdot, hword, hpoint,
      hproperty⟩⟩))
  · cases init with
    | nil =>
      obtain ⟨rfl, -⟩ := List.cons.inj hr
      simp only [Item.isMemberDot, Bool.or_eq_true] at haccess
      exact .inl (haccess.elim (fun h => ⟨_, h⟩) fun h => ⟨_, h⟩)
    | cons c init =>
      rw [List.cons_append, List.singleton_append, List.cons.injEq] at hr
      obtain ⟨rfl, hr⟩ := hr
      obtain rfl : init = [] := by
        simp only [List.length_cons, List.length_nil] at hlength
        exact List.eq_nil_of_length_eq_zero (by omega)
      obtain ⟨rfl, -⟩ := List.cons.inj hr
      have hbefore : before = (outer ++ [word, a, b]) ++ [c] := by simp [hbefore]
      rcases hend with hname | ⟨hoptional, hsquare⟩
      · exact .inr (.inr (.inl ⟨hname, by simp [hbefore, haccess]⟩))
      · exact .inr (.inr (.inr ⟨hsquare, .inr ⟨_, c, hbefore, hoptional, outer, word, a, b, rfl,
          hdot, hword, hpoint, hproperty⟩⟩))

theorem isName_of_bodies {word : Text} (h : body ∈ i.bodies) : i.isName word = false := by
  cases i with
  | leaf => cases h
  | _ => rfl

/-- scanning does not skip a keyword that names no member -/
theorem arrival_of_keyword (hkeyword : i.isName "import" = true ∨ i.isName "export" = true)
    (hdot : before.getLast?.any (·.isMemberDot) = false) :
    arrival false 0 before (i :: r) = (false, 0) := by
  have hunder := under_arrival before (i :: r)
  generalize arrival false 0 before (i :: r) = state at hunder ⊢
  obtain ⟨afterDot, _ | skip⟩ := state
  · cases hunder
    exact Prod.ext hdot rfl
  · exfalso
    obtain ⟨word, hword, hmeta⟩ : ∃ word, i.isName word = true ∧ word ≠ Text.ofString "meta" :=
      hkeyword.elim (fun h => ⟨_, h, by decide⟩) fun h => ⟨_, h, by decide⟩
    rcases part_of_under hunder with ⟨p, hp⟩ | hname | ⟨-, hafter⟩ | ⟨hsquare, -⟩
    · rw [Item.isPunct_of_isName hword] at hp
      cases hp
    · exact hmeta (Item.eq_of_isName hword hname)
    · rw [hdot] at hafter
      cases hafter
    · obtain ⟨m, rfl⟩ := Item.exists_of_isName hword
      cases hsquare

theorem metaAt?_of_square {word dot property : Item} (hword : word.isName "import" = true)
    (hdot : dot.isPunct "." = true) (hproperty : property.isName "meta" = true)
    (hsquare : i.isGroup .square = true) :
    metaAt? false word (dot :: property :: i :: r) = some (3, i) := by
  simp [metaAt?, metaMember?, hword, hdot, hproperty, Item.isMemberDot_of_isGroup hsquare, hsquare]

theorem metaAt?_of_optional {word dot property access : Item} (hword : word.isName "import" = true)
    (hdot : dot.isPunct "." = true) (hproperty : property.isName "meta" = true)
    (haccess : access.isPunct "?." = true) (hsquare : i.isGroup .square = true) :
    metaAt? false word (dot :: property :: access :: i :: r) = some (4, i) := by
  simp [metaAt?, metaMember?, hword, hdot, hproperty, haccess, hsquare, Item.isMemberDot]

theorem arrival_of_isBracketMember (h : IsBracketMember before i) :
    arrival false 0 before (i :: r) = (false, 1) := by
  obtain ⟨hsquare, ⟨outer, word, dot, property, rfl, houter, hword, hdot, hproperty⟩ |
    ⟨_, access, rfl, haccess, outer, word, dot, property, rfl, houter, hword, hdot, hproperty⟩⟩ := h
  · rw [arrival_append, List.cons_append, arrival_of_keyword (.inl hword) houter]
    simp only [arrival, List.cons_append, List.nil_append,
      metaAt?_of_square hword hdot hproperty hsquare]
  · rw [List.append_assoc, arrival_append, List.cons_append, List.cons_append,
      arrival_of_keyword (.inl hword) houter]
    simp only [arrival, List.cons_append, List.nil_append,
      metaAt?_of_optional hword hdot hproperty haccess hsquare]

/-- what has something inside of it is skipped just when it is the `[…]` of a member -/
theorem arrival_eq_zero_iff (hbody : body ∈ i.bodies) :
    (arrival false 0 before (i :: r)).2 = 0 ↔ ¬ IsBracketMember before i := by
  constructor
  · intro h hmember
    rw [arrival_of_isBracketMember hmember] at h
    cases h
  · intro hmember
    by_contra hskip
    obtain ⟨skip, hskip⟩ := Nat.exists_eq_succ_of_ne_zero hskip
    have hunder := under_arrival before (i :: r)
    rw [hskip] at hunder
    rcases part_of_under hunder with ⟨p, hp⟩ | hname | ⟨hname, -⟩ | hbracket
    · cases i with
      | leaf => cases hbody
      | _ => cases hp
    · rw [isName_of_bodies hbody] at hname
      cases hname
    · cases i with
      | leaf => cases hbody
      | _ => cases hname
    · exact hmember hbracket

/-! ## what is found in a sequence inside of others -/

theorem exists_scanFrom_of_scanInside (hbody : body ∈ i.bodies) (h : scanInside i = .ok found) :
    ∃ splits, scanFrom false 0 body = .ok splits ∧ splits.Sublist found := by
  cases i with
  | leaf => cases hbody
  | group =>
    obtain rfl := List.mem_singleton.1 hbody
    exact ⟨found, h, List.Sublist.refl _⟩
  | template q rest =>
    refine Item.forall_substitutions (P := fun items => ∃ splits,
      scanFrom false 0 items = .ok splits ∧ splits.Sublist found)
        (Q := fun rest => ∃ splits, scanRest rest = .ok splits ∧ splits.Sublist found) ?_
      ⟨found, h, List.Sublist.refl _⟩ body hbody
    rintro items q r ⟨splits, h, hsub⟩
    obtain ⟨first, more, hfirst, hmore, rfl⟩ := scanRest_cons_eq_ok.1 h
    exact ⟨⟨first, hfirst, (List.sublist_append_left _ _).trans hsub⟩, more, hmore,
      (List.sublist_append_right _ _).trans hsub⟩
  | block => cases h

/-- scanning comes to every sequence outside of the `[…]` of members -/
theorem exists_scanFrom_of_encloses (hseq : Encloses IsBracketMember items seq)
    (h : scanFrom false 0 items = .ok found) : ∃ splits, scanFrom false 0 seq = .ok splits ∧
    splits.Sublist found := by
  induction hseq generalizing found with
  | self => exact ⟨found, h, List.Sublist.refl _⟩
  | inside hmember hbody _ ih =>
    obtain ⟨behind, hbehind, hsub⟩ := exists_scanFrom_arrival h
    rw [(arrival_eq_zero_iff hbody).2 hmember] at hbehind
    rcases scanFrom_cases hbehind with ⟨n, last, rest, hmeta, -⟩ |
      ⟨own, inner, rest, -, -, hinner, -, rfl⟩
    · rw [metaAt?_of_not_import (isName_of_bodies hbody)] at hmeta
      cases hmeta
    · obtain ⟨_, hfirst, hsub₁⟩ := exists_scanFrom_of_scanInside hbody hinner
      obtain ⟨splits, hsplits, hsub₂⟩ := ih hfirst
      exact ⟨splits, hsplits, hsub₂.trans (hsub₁.trans (((List.sublist_append_right _ _).trans
        (List.sublist_append_left _ _)).trans hsub))⟩

/-- scanning comes to every keyword outside of the `[…]` of members that names no member -/
theorem exists_scanFrom_of_keyword (hseq : Encloses IsBracketMember items (before ++ i :: r))
    (hkeyword : i.isName "import" = true ∨ i.isName "export" = true)
    (hdot : before.getLast?.any (·.isMemberDot) = false)
    (h : scanFrom false 0 items = .ok found) : ∃ splits, scanFrom false 0 (i :: r) = .ok splits ∧
    splits.Sublist found := by
  obtain ⟨_, hseq, hsub₁⟩ := exists_scanFrom_of_encloses hseq h
  obtain ⟨splits, hsplits, hsub₂⟩ := exists_scanFrom_arrival hseq
  rw [arrival_of_keyword hkeyword hdot] at hsplits
  exact ⟨splits, hsplits, hsub₂.trans hsub₁⟩

end Split

end Relocation
