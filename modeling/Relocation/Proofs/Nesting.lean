import Relocation.Proofs.Placement

/-!
# The sequences of a tree

Every group, block and substitution of a template is a sequence of its own.  `Item.Encloses` relates
a sequence to those that stand in it at any depth; items that are `hidden` keep what is inside of
them to themselves.
-/

namespace Relocation.Item

/-- the sequences directly inside an item -/
def bodies : Item → List (List Item)
  | .leaf _ _ _ => []
  | .group _ items _ _ => [items]
  | .template _ rest _ => rest.map (·.1)
  | .block items _ _ => [items]

/-- the second sequence is the first one, or stands in it at some depth inside of items none of
which is hidden; whether an item is hidden depends on what comes before it -/
inductive Encloses (hidden : List Item → Item → Prop) : List Item → List Item → Prop
  | self (items : List Item) : Encloses hidden items items
  | inside {before after body seq : List Item} {i : Item} : ¬ hidden before i → body ∈ i.bodies →
    Encloses hidden body seq → Encloses hidden (before ++ i :: after) seq

/-- nothing is hidden -/
def Apparent (_ : List Item) (_ : Item) : Prop := False

variable {hidden : List Item → Item → Prop} {lo hi : Nat} {i : Item} {items seq body : List Item}

theorem Encloses.head {after : List Item} (hi : ¬ hidden [] i) (hbody : body ∈ i.bodies)
    (h : Encloses hidden body seq) : Encloses hidden (i :: after) seq :=
  @Encloses.inside hidden [] after body seq i hi hbody h

/-- what holds of substitutions one after the other holds of each of them -/
theorem forall_substitutions {P : List Item → Prop} {Q : List (List Item × Text) → Prop}
    (hQ : ∀ items q r, Q ((items, q) :: r) → P items ∧ Q r) {rest : List (List Item × Text)}
    (h : Q rest) : ∀ body ∈ rest.map (·.1), P body := by
  induction rest with
  | nil => simp
  | cons part rest ih =>
    obtain ⟨hitems, hrest⟩ := hQ _ _ _ h
    exact List.forall_mem_cons.2 ⟨hitems, ih hrest⟩

theorem exists_placedAll_of_bodies (h : Placed lo hi i) (hbody : body ∈ i.bodies) :
    ∃ lo' hi', PlacedAll lo' hi' body := by
  cases i with
  | leaf => cases hbody
  | template q rest m =>
    obtain ⟨range, -, -, -, -, hrest⟩ := h
    refine forall_substitutions (P := fun items => ∃ lo hi, PlacedAll lo hi items)
      (Q := fun rest => ∃ lo hi, PlacedRest lo hi rest) ?_ ⟨_, _, hrest⟩ body hbody
    rintro items q r ⟨lo, hi, mid, hitems, hr⟩
    exact ⟨⟨lo, mid, hitems⟩, mid, hi, hr⟩
  | group b items m c =>
    obtain ⟨range, -, -, -, -, hitems⟩ := h
    obtain rfl := List.mem_singleton.1 hbody
    exact ⟨_, _, hitems⟩
  | block items m c =>
    obtain ⟨range, -, -, -, -, hitems⟩ := h
    obtain rfl := List.mem_singleton.1 hbody
    exact ⟨_, _, hitems⟩

/-- what stands inside of placed items is placed -/
theorem Encloses.placed (h : Encloses hidden items seq) (hitems : PlacedAll lo hi items) :
    ∃ lo' hi', PlacedAll lo' hi' seq := by
  induction h generalizing lo hi with
  | self items => exact ⟨lo, hi, hitems⟩
  | inside _ hbody _ ih =>
    obtain ⟨_, _, -, hi, -⟩ := exists_placed_of_middle hitems
    obtain ⟨_, _, hbody⟩ := exists_placedAll_of_bodies hi hbody
    exact ih hbody

end Relocation.Item
