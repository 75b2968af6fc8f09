import Relocation.ImportCall
import Relocation.Proofs.Unplaced

/-!
# What guarding does to a call

Guarding changes argument groups only: `guardCalls_eq_ok` pairs the items before and after, and
`guardArguments_eq_some` says what becomes of the arguments.  A group that was guarded is left alone
from then on (`guardGroup?_of_guarded`).
-/

namespace Relocation

theorem splitCommas_ne_nil (items : List Item) : splitCommas items ≠ [] := by
  cases items with
  | nil => simp [splitCommas]
  | cons i r =>
    rw [splitCommas]
    split
    · simp
    · split <;> simp

theorem splitCommas_cons_of_comma {i : Item} (hi : i.isPunct "," = true) (r : List Item) :
    splitCommas (i :: r) = [] :: splitCommas r := by
  rw [splitCommas]
  split
  · rename_i h
    exact (splitCommas_ne_nil r h).elim
  · rename_i h
    rw [if_pos hi, h]

theorem splitCommas_cons_of_not_comma {i : Item} (hi : i.isPunct "," = false) {r p : List Item}
    {ps : List (List Item)} (hr : splitCommas r = p :: ps) :
    splitCommas (i :: r) = (i :: p) :: ps := by
  rw [splitCommas, hr]
  simp [hi]

theorem splitCommas_append {a b p : List Item} {ps : List (List Item)}
    (ha : ∀ i ∈ a, i.isPunct "," = false) (hb : splitCommas b = p :: ps) :
    splitCommas (a ++ b) = (a ++ p) :: ps := by
  induction a with
  | nil => exact hb
  | cons i a ih =>
    obtain ⟨hi, ha⟩ := List.forall_mem_cons.1 ha
    exact splitCommas_cons_of_not_comma hi (ih ha)

/-- what has one part holds no comma -/
theorem splitCommas_eq_singleton {items part : List Item} :
    splitCommas items = [part] ↔ items = part ∧ ∀ i ∈ part, i.isPunct "," = false := by
  constructor
  · intro h
    induction items generalizing part with
    | nil =>
      obtain rfl : [] = part := by simpa [splitCommas] using h
      exact ⟨rfl, by simp⟩
    | cons i r ih =>
      obtain ⟨p, ps, hr⟩ := List.exists_cons_of_ne_nil (splitCommas_ne_nil r)
      cases hi : i.isPunct "," with
      | true =>
        rw [splitCommas_cons_of_comma hi, hr] at h
        cases h
      | false =>
        rw [splitCommas_cons_of_not_comma hi hr] at h
        obtain ⟨rfl, rfl⟩ := List.cons.inj h
        obtain ⟨rfl, hp⟩ := ih hr
        exact ⟨rfl, List.forall_mem_cons.2 ⟨hi, hp⟩⟩
  · rintro ⟨rfl, h⟩
    rw [← List.append_nil items, splitCommas_append h (rfl : splitCommas [] = [[]]),
      List.append_nil]

theorem splitCommas_eq_comma_last {items part : List Item} : splitCommas items = [part, []] ↔
    (∀ i ∈ part, i.isPunct "," = false) ∧ ∃ comma : Item, comma.isPunct "," = true ∧
    items = part ++ [comma] := by
  constructor
  · intro h
    induction items generalizing part with
    | nil => simp [splitCommas] at h
    | cons i r ih =>
      obtain ⟨p, ps, hr⟩ := List.exists_cons_of_ne_nil (splitCommas_ne_nil r)
      cases hi : i.isPunct "," with
      | true =>
        rw [splitCommas_cons_of_comma hi, hr] at h
        obtain ⟨rfl, hpart⟩ := List.cons.inj h
        rw [hpart] at hr
        obtain ⟨rfl, -⟩ := splitCommas_eq_singleton.1 hr
        exact ⟨by simp, i, hi, rfl⟩
      | false =>
        rw [splitCommas_cons_of_not_comma hi hr] at h
        obtain ⟨rfl, rfl⟩ := List.cons.inj h
        obtain ⟨hp, comma, hcomma, rfl⟩ := ih hr
        exact ⟨List.forall_mem_cons.2 ⟨hi, hp⟩, comma, hcomma, rfl⟩
  · rintro ⟨h, comma, hcomma, rfl⟩
    have hlast : splitCommas [comma] = [[], []] := splitCommas_cons_of_comma hcomma []
    rw [splitCommas_append h hlast, List.append_nil]

/-- a lone argument is all there is between the parentheses, a trailing comma apart -/
theorem argumentsOf_eq_singleton {items argument : List Item} : argumentsOf items = [argument] ↔
    (∀ i ∈ argument, i.isPunct "," = false) ∧ ((items = argument ∧ argument ≠ []) ∨
      ∃ comma : Item, comma.isPunct "," = true ∧ items = argument ++ [comma]) := by
  constructor
  · intro h
    rw [argumentsOf] at h
    split_ifs at h with hlast
    · have hparts := List.dropLast_concat_getLast (splitCommas_ne_nil items)
      rw [List.getLast?_eq_some_getLast (splitCommas_ne_nil items), Option.getD_some,
        List.isEmpty_iff] at hlast
      rw [h, hlast] at hparts
      obtain ⟨hargument, hitems⟩ := splitCommas_eq_comma_last.1 hparts.symm
      exact ⟨hargument, .inr hitems⟩
    · obtain ⟨rfl, hargument⟩ := splitCommas_eq_singleton.1 h
      rw [h] at hlast
      exact ⟨hargument, .inl ⟨rfl, fun hnil => hlast (by rw [hnil]; rfl)⟩⟩
  · rintro ⟨h, ⟨rfl, hne⟩ | hcomma⟩
    · rw [argumentsOf, splitCommas_eq_singleton.2 ⟨rfl, h⟩]
      exact if_neg fun hnil => hne (List.isEmpty_iff.1 hnil)
    · rw [argumentsOf, splitCommas_eq_comma_last.2 ⟨h, hcomma⟩]
      rfl

theorem eq_of_argumentsOf_singleton {items argument : List Item}
    (h : argumentsOf items = [argument]) : items = argument ∨ ∃ comma : Item,
    comma.isPunct "," = true ∧ items = argument ++ [comma] :=
  (argumentsOf_eq_singleton.1 h).2.imp_left And.left

namespace ImportCall

variable {options : Options} {items out : List Item}

/-- the call that a local literal becomes the argument of -/
def located (literal : Item) : List Item :=
  [.name "new", .name "URL", .grouped .paren (literal :: .punct "," :: Substitution.metaUrlItems)]

/-- the call that any other argument is passed through -/
def fixedUp (options : Options) (argument : List Item) : List Item :=
  [.name options.classCode, .punct ".", .name "fixup", .grouped .paren argument]

theorem localLiteral?_eq_some {i : Item} (h : localLiteral? items = .ok (some i)) :
    ∃ t m, i = .leaf .string t m ∧ items = [i] := by
  unfold localLiteral? at h
  split at h
  · rename_i j
    split at h
    · cases h
    · rename_i t ht
      obtain ⟨value, -, h⟩ := Except.bind_eq_ok.1 h
      split_ifs at h
      · obtain rfl := Option.some.inj (Except.ok.inj h)
        obtain ⟨m, rfl⟩ : ∃ m, j = .leaf .string t m := by
          unfold Item.stringText? at ht
          split at ht
          · exact ⟨_, by rw [Option.some.inj ht]⟩
          · cases ht
        exact ⟨t, m, rfl, rfl⟩
      · cases h
  · cases h

/-- a lone string literal whose value is a local path -/
def IsLocalLiteral (argument : List Item) : Prop :=
  ∃ t m value, argument = [.leaf .string t m] ∧ Literal.value t = .ok value ∧
    isLocalPath value = true

theorem isLocalLiteral_of_some {i : Item} {argument : List Item}
    (h : localLiteral? argument = .ok (some i)) : argument = [i] ∧ IsLocalLiteral argument := by
  obtain ⟨t, m, rfl, rfl⟩ := localLiteral?_eq_some h
  obtain ⟨value, hvalue, h⟩ := Except.bind_eq_ok.1 h
  refine ⟨rfl, t, m, value, rfl, hvalue, ?_⟩
  by_contra hlocal
  rw [if_neg hlocal] at h
  cases h

theorem not_isLocalLiteral_of_none {argument : List Item} (h : localLiteral? argument = .ok none) :
    ¬ IsLocalLiteral argument := by
  rintro ⟨t, m, value, rfl, hvalue, hlocal⟩
  have hliteral : localLiteral? [.leaf .string t m] =
      Literal.value t >>= fun v => .ok (if isLocalPath v then some (.leaf .string t m) else none) :=
    rfl
  rw [hliteral, hvalue] at h
  simp [hlocal, bind, Except.bind] at h

/-- what guarding makes of a lone argument: a local literal becomes a URL right there, anything else
goes through `fixup` -/
theorem eq_of_guardArguments (h : guardArguments options items = .ok (some out)) :
    ∃ argument, argumentsOf items = [argument] ∧
      ((IsLocalLiteral argument ∧ ∃ literal, argument = [literal] ∧ out = located literal) ∨
        (¬ IsLocalLiteral argument ∧ out = fixedUp options argument)) := by
  unfold guardArguments at h
  split at h
  · rename_i argument hargument
    obtain ⟨literal, hliteral, h⟩ := Except.bind_eq_ok.1 h
    cases literal with
    | some literal =>
      obtain rfl := Option.some.inj (Except.ok.inj h)
      obtain ⟨hlone, hlocal⟩ := isLocalLiteral_of_some hliteral
      exact ⟨argument, hargument, .inl ⟨hlocal, literal, hlone, rfl⟩⟩
    | none =>
      simp only at h
      split at h
      · cases h
      · obtain rfl := Option.some.inj (Except.ok.inj h)
        exact ⟨argument, hargument, .inr ⟨not_isLocalLiteral_of_none hliteral, rfl⟩⟩
  · cases h

theorem guardArguments_eq_some (h : guardArguments options items = .ok (some out)) :
    ∃ argument, argumentsOf items = [argument] ∧
      ((∃ t m, argument = [.leaf .string t m] ∧ out = located (.leaf .string t m)) ∨
        out = fixedUp options argument) := by
  obtain ⟨argument, hargument, ⟨⟨t, m, _, rfl, -⟩, _, hliteral, rfl⟩ | ⟨-, rfl⟩⟩ :=
    eq_of_guardArguments h
  · obtain ⟨rfl, -⟩ := List.cons.inj hliteral
    exact ⟨_, hargument, .inl ⟨t, m, rfl, rfl⟩⟩
  · exact ⟨argument, hargument, .inr rfl⟩

theorem guardGroup?_eq_some {i j : Item} (h : guardGroup? options i = .ok (some j)) :
    ∃ items out m closeNewline, i = .group .paren items m closeNewline ∧
      j = .group .paren out ⟨none, m.newline⟩ closeNewline ∧
      guardArguments options items = .ok (some out) := by
  unfold guardGroup? at h
  split at h
  · rename_i items m closeNewline
    obtain ⟨guarded, hguarded, h⟩ := Except.bind_eq_ok.1 h
    cases guarded with
    | none => cases h
    | some out =>
      obtain rfl := Option.some.inj (Except.ok.inj h)
      exact ⟨items, out, m, closeNewline, rfl, rfl, hguarded⟩
  · cases h

/-- an item is replaced if it is a call that is guarded -/
theorem replacements_cons_eq_ok {before previous : Option Item} {i : Item} {r : List Item}
    {os : List (Option Item)}
    (h : (replacements options before previous (i :: r)).result = .ok os) :
    ∃ own rest, (∀ j ∈ own, guardGroup? options i = .ok (some j)) ∧
      (isCall before previous i r = true → guardGroup? options i = .ok own) ∧
      (replacements options previous (some i) r).result = .ok rest ∧ os = own :: rest := by
  rw [result_replacements_cons] at h
  obtain ⟨own, hown, h⟩ := Except.bind_eq_ok.1 h
  obtain ⟨rest, hrest, h⟩ := Except.bind_eq_ok.1 h
  refine ⟨own, rest, ?_, fun hcall => by rwa [if_pos hcall] at hown, hrest, (Except.ok.inj h).symm⟩
  rintro j rfl
  split_ifs at hown
  · exact hown
  · cases hown

theorem replacements_eq_ok {os : List (Option Item)} : ∀ {before previous : Option Item},
    (replacements options before previous items).result = .ok os →
    List.Forall₂ (fun i o => ∀ j ∈ o, guardGroup? options i = .ok (some j)) items os := by
  induction items generalizing os with
  | nil =>
    intro before previous h
    obtain rfl := Except.ok.inj h
    exact .nil
  | cons i r ih =>
    intro before previous h
    obtain ⟨own, rest, hown, -, hrest, rfl⟩ := replacements_cons_eq_ok h
    exact .cons hown (ih hrest)

/-- every item stays, or is an argument group and is guarded -/
theorem guardCalls_eq_ok (h : (guardCalls options items).result = .ok out) :
    List.Forall₂ (fun i j => j = i ∨ guardGroup? options i = .ok (some j)) items out := by
  simp only [guardCalls, Noted.result_bind, Noted.result_pure] at h
  obtain ⟨os, hos, hout⟩ := Except.bind_eq_ok.1 h
  obtain rfl := Except.ok.inj hout
  have hpairs := replacements_eq_ok hos
  clear h hos hout
  induction hpairs with
  | nil => exact .nil
  | @cons i o items os hi _ ih =>
    refine .cons ?_ ih
    cases o with
    | none => exact .inl rfl
    | some j => exact .inr (hi j rfl)

/-- what guarding made of arguments is left alone -/
theorem guardArguments_of_guarded (hclass : options.className.isSome = true)
    (h : guardArguments options items = .ok (some out)) :
    guardArguments options out = .ok none := by
  obtain ⟨cls, hcls⟩ := Option.isSome_iff_exists.1 hclass
  obtain ⟨argument, -, ⟨t, m, -, rfl⟩ | rfl⟩ := guardArguments_eq_some h
  · have hlocated : isLocated (located (.leaf .string t m)) = true := rfl
    have harguments : argumentsOf (located (.leaf .string t m)) = [located (.leaf .string t m)] :=
      rfl
    rw [guardArguments, harguments]
    simp only [hlocated, Bool.or_true, if_true]
    rfl
  · have hfixup : isFixup options (fixedUp options argument) = true := by
      simp only [isFixup, fixedUp, Options.isClass, Options.classCode, hcls]
      simp [Item.name, Item.isName, Item.punct, Item.isPunct, Item.grouped, Item.isGroup,
        Item.groupItems?]
    have harguments : argumentsOf (fixedUp options argument) = [fixedUp options argument] := rfl
    rw [guardArguments, harguments]
    simp only [hfixup, Bool.true_or, if_true]
    rfl

theorem guardGroup?_of_guarded {i j : Item} (hclass : options.className.isSome = true)
    (h : guardGroup? options i = .ok (some j)) : guardGroup? options j = .ok none := by
  obtain ⟨items, out, m, closeNewline, rfl, rfl, hguarded⟩ := guardGroup?_eq_some h
  rw [guardGroup?, guardArguments_of_guarded hclass hguarded]
  rfl

end ImportCall

end Relocation
