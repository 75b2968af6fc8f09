import Relocation.Proofs.Outline

/-!
# What lowering changes around blocks

`Item.Rewritten` relates a sequence to the same sequence with calls guarded, at every depth, and
blocks left alone.  Besides guarding, ranges are all that changes.  A sequence and its outline are
so related (`Compile.rewritten_outline`).
-/

namespace Relocation

namespace Item

open ImportCall (IsLocalLiteral located fixedUp)

/-- nothing, or a trailing comma -/
def TrailingComma (items : List Item) : Prop := items = [] ∨ ∃ m, items = [.leaf .punct "," m]

mutual
/-- calls of the first sequence are guarded in the second; `lead` is what stands before -/
inductive Rewritten : Lead → List Item → List Item → Prop
  | nil {lead} : Rewritten lead [] []
  | leaf {lead k t m r r'} : k.isLeaf = true → Rewritten (lead.next (.leaf k t m)) r r' →
      Rewritten lead (.leaf k t m :: r) (.leaf k t m :: r')
  | group {lead b items items' m c r r'} : Rewritten .other items items' → Rewritten .other r r' →
      Rewritten lead (.group b items m c :: r) (.group b items' ⟨none, m.newline⟩ c :: r')
  | template {lead q rest rest' m r r'} : RewrittenRest rest rest' → Rewritten .other r r' →
      Rewritten lead (.template q rest m :: r) (.template q rest' ⟨none, m.newline⟩ :: r')
  | block {lead items m c r r'} : Rewritten .other r r' →
      Rewritten lead (.block items m c :: r) (.block items m c :: r')
  | located {literal comma m c r r'} : IsLocalLiteral [literal] → TrailingComma comma →
      Rewritten .other r r' → Rewritten .callee (.group .paren (literal :: comma) m c :: r)
    (.group .paren (located literal) ⟨none, m.newline⟩ c :: r')
  | fixedUp {argument argument' comma m c r r'} : (∀ i ∈ argument, i.isPunct "," = false) →
      Rewritten .other argument argument' → TrailingComma comma → Rewritten .other r r' →
      Rewritten .callee (.group .paren (argument ++ comma) m c :: r)
    (.group .paren (fixedUp {} argument') ⟨none, m.newline⟩ c :: r')

/-- the substitutions of a template, each a sequence of its own -/
inductive RewrittenRest : List (List Item × Text) → List (List Item × Text) → Prop
  | nil : RewrittenRest [] []
  | cons {items items' q r r'} : Rewritten .other items items' → RewrittenRest r r' →
      RewrittenRest ((items, q) :: r) ((items', q) :: r')
end

variable {lead : Lead} {i j : Item} {items out argument : List Item}

theorem Rewritten.eq_nil (h : Rewritten lead items []) : items = [] := by
  cases h
  rfl

/-- a leaf at the end of the rewritten sequence was there before -/
theorem Rewritten.of_append_leaf {k : Piece.Kind} {t : Text} {m : Mark}
    (h : Rewritten lead items (out ++ [.leaf k t m])) :
    ∃ ahead, items = ahead ++ [.leaf k t m] ∧ Rewritten lead ahead out := by
  induction out generalizing lead items with
  | nil =>
    cases h with
    | leaf _ h =>
      obtain rfl := h.eq_nil
      exact ⟨[], rfl, .nil⟩
  | cons j out ih =>
    cases h with
    | leaf hk h =>
      obtain ⟨ahead, rfl, hahead⟩ := ih h
      exact ⟨_, rfl, .leaf hk hahead⟩
    | group hitems h =>
      obtain ⟨ahead, rfl, hahead⟩ := ih h
      exact ⟨_, rfl, .group hitems hahead⟩
    | template hrest h =>
      obtain ⟨ahead, rfl, hahead⟩ := ih h
      exact ⟨_, rfl, .template hrest hahead⟩
    | block h =>
      obtain ⟨ahead, rfl, hahead⟩ := ih h
      exact ⟨_, rfl, .block hahead⟩
    | located hliteral hcomma h =>
      obtain ⟨ahead, rfl, hahead⟩ := ih h
      exact ⟨_, rfl, .located hliteral hcomma hahead⟩
    | fixedUp hargument hrewritten hcomma h =>
      obtain ⟨ahead, rfl, hahead⟩ := ih h
      exact ⟨_, rfl, .fixedUp hargument hrewritten hcomma hahead⟩

theorem Rewritten.map_face (h : Rewritten lead items out) : out.map face = items.map face := by
  induction out generalizing lead items with
  | nil =>
    obtain rfl := h.eq_nil
    rfl
  | cons j out ih =>
    cases h with
    | leaf _ h => rw [List.map_cons, List.map_cons, ih h]
    | group _ h => rw [List.map_cons, List.map_cons, ih h]; rfl
    | template _ h => rw [List.map_cons, List.map_cons, ih h]; rfl
    | block h => rw [List.map_cons, List.map_cons, ih h]
    | located _ _ h => rw [List.map_cons, List.map_cons, ih h]; rfl
    | fixedUp _ _ _ h => rw [List.map_cons, List.map_cons, ih h]; rfl

/-- a literal that stands alone stood alone -/
theorem Rewritten.eq_singleton {t : Text} {m : Mark}
    (h : Rewritten lead items [.leaf .string t m]) : items = [.leaf .string t m] := by
  obtain ⟨ahead, rfl, hahead⟩ : ∃ ahead, items = ahead ++ [.leaf .string t m] ∧
    Rewritten lead ahead [] :=
    Rewritten.of_append_leaf h
  rw [hahead.eq_nil]
  rfl

/-- the rewritten arguments of a call are those of a guarded call as well -/
theorem Rewritten.guarded {args args' r r' : List Item} {m : Mark} {c : Bool}
    (hargs : Rewritten .other args args')
    (hguard : ImportCall.guardArguments {} args' = .ok (some out)) (h : Rewritten .other r r') :
    Rewritten .callee (.group .paren args m c :: r)
      (.group .paren out ⟨none, m.newline⟩ c :: r') := by
  obtain ⟨argument', hargument', hout⟩ := ImportCall.eq_of_guardArguments hguard
  obtain ⟨hcommas, hargs'⟩ := argumentsOf_eq_singleton.1 hargument'
  obtain ⟨argument, comma, rfl, hcomma, hrewritten⟩ : ∃ argument comma, args = argument ++ comma ∧
    TrailingComma comma ∧
      Rewritten .other argument argument' := by
    rcases hargs' with ⟨rfl, -⟩ | ⟨comma, hcomma, rfl⟩
    · exact ⟨args, [], (List.append_nil _).symm, .inl rfl, hargs⟩
    · obtain ⟨m, rfl⟩ := exists_of_isPunct hcomma
      obtain ⟨argument, rfl, hrewritten⟩ := hargs.of_append_leaf
      exact ⟨argument, _, rfl, .inr ⟨m, rfl⟩, hrewritten⟩
  rcases hout with ⟨hlocal, literal, rfl, rfl⟩ | ⟨-, rfl⟩
  · obtain ⟨t, m', _, hliteral, -⟩ := id hlocal
    obtain ⟨rfl, -⟩ := List.cons.inj hliteral
    obtain rfl := hrewritten.eq_singleton
    exact .located hlocal hcomma h
  · refine .fixedUp (fun i hi => ?_) hrewritten hcomma h
    have hface := List.mem_map_of_mem (f := face) hi
    rw [← hrewritten.map_face] at hface
    obtain ⟨j, hj, hjface⟩ := List.mem_map.1 hface
    rw [← isPunct_face, ← hjface, isPunct_face]
    exact hcommas j hj

end Item

namespace Compile

open Item
open Token (Left)

/-! ## outlines -/

mutual
theorem rewritten_item :
    ∀ {i x : Item} {l : Left} {lead : Lead} {j : Item} {r₀ r r' : List Item}, Fits l i →
    replaceItem {} (fun block => [block]) i = .ok [x] → ImportCall.guardItem {} lead x r₀ = .ok j →
    Rewritten (lead.next i) r r' → Rewritten lead (i :: r) (j :: r')
  | .leaf k t m, x, l, lead, j, r₀, r, r', hfits, hx, hj, h => by
    obtain ⟨rfl, -⟩ := List.cons.inj (Except.ok.inj hx)
    rw [ImportCall.guardItem_of_not_paren rfl] at hj
    obtain rfl := Except.ok.inj hj
    exact .leaf hfits.1 h
  | .group b items m c, x, l, lead, j, r₀, r, r', hfits, hx, hj, h => by
    obtain ⟨lowered, hlowered, hx⟩ := Except.bind_eq_ok.1 hx
    obtain ⟨items', hitems', hx⟩ := Except.bind_eq_ok.1 hx
    obtain ⟨rfl, -⟩ := List.cons.inj (Except.ok.inj hx)
    rw [ImportCall.result_guardCalls] at hitems'
    have hitems := rewritten_all hfits hlowered hitems'
    obtain rfl | ⟨rfl, args, out, m', c', hgroup, rfl, hguard⟩ := ImportCall.guardItem_eq_ok hj
    · exact .group hitems h
    · obtain ⟨rfl, rfl, rfl, rfl⟩ := Item.group.inj hgroup
      exact hitems.guarded hguard h
  | .template q rest m, x, l, lead, j, r₀, r, r', hfits, hx, hj, h => by
    obtain ⟨rest', hrest', hx⟩ := Except.bind_eq_ok.1 hx
    obtain ⟨rfl, -⟩ := List.cons.inj (Except.ok.inj hx)
    rw [ImportCall.guardItem_of_not_paren rfl] at hj
    obtain rfl := Except.ok.inj hj
    exact .template (rewritten_rest hfits.2 hrest') h
  | .block items m c, x, l, lead, j, r₀, r, r', hfits, hx, hj, h => by
    obtain ⟨rfl, -⟩ := List.cons.inj (Except.ok.inj hx)
    rw [ImportCall.guardItem_of_not_paren rfl] at hj
    obtain rfl := Except.ok.inj hj
    exact .block h

theorem rewritten_all : ∀ {items lowered out : List Item} {l : Left} {lead : Lead},
    FitsAll l items → replaceAll {} (fun block => [block]) items = .ok lowered →
    ImportCall.guardFrom {} lead lowered = .ok out → Rewritten lead items out
  | [], lowered, out, l, lead, hfits, hlowered, hout => by
    obtain rfl := Except.ok.inj hlowered
    obtain rfl := Except.ok.inj hout
    exact .nil
  | i :: r, lowered, out, l, lead, hfits, hlowered, hout => by
    obtain ⟨x, rest, hx, hface, hrest, rfl⟩ := replaceAll_cons_eq_ok hlowered
    obtain ⟨j, out, hj, hbehind, rfl⟩ := ImportCall.guardFrom_cons_eq_ok.1 hout
    rw [Lead.next_of_face hface] at hbehind
    exact rewritten_item hfits.1 hx hj (rewritten_all hfits.2 hrest hbehind)

theorem rewritten_rest : ∀ {rest rest' : List (List Item × Text)}, FitsRest rest →
    replaceRest {} (fun block => [block]) rest = .ok rest' → RewrittenRest rest rest'
  | [], rest', hfits, h => by
    obtain rfl := Except.ok.inj h
    exact .nil
  | (items, q) :: r, rest', hfits, h => by
    obtain ⟨hitems, -, hr⟩ := fitsRest_cons.1 hfits
    obtain ⟨lowered, hlowered, h⟩ := Except.bind_eq_ok.1 h
    obtain ⟨items', hitems', h⟩ := Except.bind_eq_ok.1 h
    obtain ⟨more, hmore, h⟩ := Except.bind_eq_ok.1 h
    obtain rfl := Except.ok.inj h
    rw [ImportCall.result_guardCalls] at hitems'
    exact .cons (rewritten_all hitems hlowered hitems') (rewritten_rest hr hmore)
end

theorem rewritten_outline {items sketch : List Item} {l : Left} (hfits : FitsAll l items)
    (h : outline items = .ok sketch) : Rewritten .other items sketch := by
  obtain ⟨lowered, hlowered, hguard⟩ := Except.bind_eq_ok.1 h
  rw [ImportCall.result_guardCalls] at hguard
  exact rewritten_all hfits hlowered hguard

end Compile

end Relocation
