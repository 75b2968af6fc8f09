import Relocation.Proofs.Grammar
import Relocation.Proofs.Positions

/-!
# Why a text is refused

A text is refused for a fault that has a place in it, or because a stray digit is met before any
other fault.
-/

namespace Relocation

namespace Failure

/-- the failure is a fault of the source with a line and a column -/
def IsPlaced (failure : Failure) : Prop := ∃ e, failure = .source e ∧ e.place.isSome = true

theorem isPlaced_sourceAt (p : Position) (fault : SourceFault) : (sourceAt p fault).IsPlaced :=
  ⟨_, rfl, rfl⟩

theorem not_isPlaced_strayDigit : ¬ IsPlaced .strayDigit := by
  rintro ⟨e, he, -⟩
  cases he

end Failure

namespace TokenStream

open Token.Context (opensStrayDigit)

variable {source : Text} {failure : Failure} {s : TokenStream}

/-- what is left of a text behind its tokens decides about it -/
theorem exists_rest (source : Text) : ∃ rest,
    Token.Tiles source (interpreterLine source).length rest (ofText source).tokens ∧
      ((ofText source).failure = none ↔ rest = []) ∧
      ((ofText source).failure = some .strayDigit ↔ ∃ c r, rest = c :: r ∧
        opensStrayDigit c r = true) := by
  obtain ⟨ls, rest, stopped, hsource, hcuts, htokens, hfailure, hstopped, hrefused⟩ :=
    exists_lexemes source
  refine ⟨rest, tiles_of_lexemes hsource hcuts htokens, ?_, ?_⟩
  · rw [hfailure, Option.map_eq_none_iff, hstopped]
  · have hstray : (ofText source).failure = some .strayDigit ↔ stopped = some .strayDigit := by
      rw [hfailure]
      cases stopped with
      | none => simp
      | some refusal => cases refusal <;> simp [Token.Context.Refusal.failure, Failure.sourceAt]
    rw [hstray]
    constructor
    · intro h
      obtain ⟨c, r, hrest, hrefuses⟩ := hrefused _ h
      exact ⟨c, r, hrest, hrefuses.eq_strayDigit.1 rfl⟩
    · rintro ⟨c, r, hrest, hstray⟩
      cases hs : stopped with
      | none => simp [hstopped.1 hs] at hrest
      | some refusal =>
        obtain ⟨c', r', hrest', hrefuses⟩ := hrefused _ hs
        obtain ⟨rfl, rfl⟩ := List.cons.inj (hrest.symm.trans hrest')
        rw [hrefuses.eq_strayDigit.2 hstray]

theorem failure_cases (h : (ofText source).failure = some failure) : failure = .strayDigit ∨
    failure.IsPlaced := by
  obtain ⟨ls, rest, stopped, -, -, -, hfailure, -, -⟩ := exists_lexemes source
  rw [hfailure] at h
  obtain ⟨refusal, -, rfl⟩ := Option.map_eq_some_iff.1 h
  cases refusal with
  | fault f => exact .inr (Failure.isPlaced_sourceAt _ f)
  | strayDigit => exact .inl rfl

end TokenStream

namespace Program

open TokenStream

variable {source : Text} {failure : Failure}

theorem items_of_read_eq_error (h : read source = .error failure) :
    (ofText source).items = .error failure := by
  rcases Except.bind_eq_error.1 h with h | ⟨_, -, h⟩
  · exact h
  · cases h

theorem read_eq_error {t : Text} {e : Failure}
    (h : (read t >>= fun p => .ok p.items.length) = .error e) : read t = .error e := by
  rcases Except.bind_eq_error.1 h with h | ⟨_, -, h⟩
  · exact h
  · cases h

/-- a stray digit is reported unless a bracket before it is out of place -/
theorem read_eq_strayDigit : read source = .error .strayDigit ↔
    (ofText source).failure = some .strayDigit ∧ Token.Viable (ofText source).kinds := by
  constructor
  · intro h
    generalize hf : Failure.strayDigit = failure at h
    cases items_eq_error (items_of_read_eq_error h) with
    | token => cases hf
    | lexeme hviable hfailure => exact ⟨hf ▸ hfailure, hviable⟩
    | ending => cases hf
  · rintro ⟨hfailure, hviable⟩
    cases hitems : (ofText source).items with
    | ok items =>
      have := (exists_items_iff.1 ⟨items, hitems⟩).1
      rw [hfailure] at this
      cases this
    | error failure =>
      rw [read, hitems]
      cases items_eq_error hitems with
      | token htokens hbefore ht =>
        rw [TokenStream.kinds, htokens, List.append_cons, List.map_append] at hviable
        exact absurd hviable.of_append ht
      | lexeme _ hfailure' =>
        rw [hfailure] at hfailure'
        obtain rfl := Option.some.inj hfailure'
        rfl
      | ending _ hnone =>
        rw [hfailure] at hnone
        cases hnone

/-- Cutting a text into tokens, and reading it, succeed or find a fault that has a place, with one
exception: a character that has a digit value and is no decimal digit, where a number should
begin. -/
theorem refused_only (source : Text) :
    (∃ rest, Token.Tiles source (interpreterLine source).length rest (ofText source).tokens ∧
      ((ofText source).failure = none ↔ rest = []) ∧
      ((ofText source).failure = some .strayDigit ↔
        ∃ c r, rest = c :: r ∧ Token.Context.opensStrayDigit c r = true)) ∧
    (∀ failure, (ofText source).failure = some failure → failure = .strayDigit ∨ failure.IsPlaced) ∧
    (∀ failure, read source = .error failure → failure = .strayDigit ∨ failure.IsPlaced) ∧
    (read source = .error .strayDigit ↔
      (ofText source).failure = some .strayDigit ∧ Token.Viable (ofText source).kinds) := by
  refine ⟨exists_rest source, fun failure => failure_cases, fun failure h => ?_, read_eq_strayDigit⟩
  cases items_eq_error (items_of_read_eq_error h) with
  | token => exact .inr (Failure.isPlaced_sourceAt _ _)
  | lexeme _ hfailure => exact failure_cases hfailure
  | ending => exact .inr (Failure.isPlaced_sourceAt _ _)

/-- a bracket out of place is reported before the stray digit behind it -/
theorem refused_only_bracket :
    read (Text.ofString "a]\u00b2") =
      .error (.sourceAt ⟨1, 1, 2⟩ (.unbalanced (Text.ofString "]"))) ∧
    (Failure.sourceAt ⟨1, 1, 2⟩ (.unbalanced (Text.ofString "]"))).IsPlaced ∧
    (ofText (Text.ofString "a]\u00b2")).failure = some .strayDigit ∧
    ¬ Token.Viable (ofText (Text.ofString "a]\u00b2")).kinds := by
  have hread := read_eq_error (t := Text.ofString "a]\u00b2")
    (e := .sourceAt ⟨1, 1, 2⟩ (.unbalanced (Text.ofString "]"))) (by decide +kernel)
  have hstray : (ofText (Text.ofString "a]\u00b2")).failure = some .strayDigit := by decide +kernel
  obtain ⟨-, -, hplaced, hviable⟩ := refused_only (Text.ofString "a]\u00b2")
  refine ⟨hread, (hplaced _ hread).resolve_left (by decide), hstray, fun h => ?_⟩
  have := hviable.2 ⟨hstray, h⟩
  rw [hread] at this
  cases this

/-- a superscript two is refused, and the failure has no place -/
theorem refused_superscript :
    (ofText (Text.ofString "\u00b2")).failure = some .strayDigit ∧
    read (Text.ofString "\u00b2") = .error .strayDigit ∧ ¬ Failure.strayDigit.IsPlaced :=
  ⟨by decide +kernel, read_eq_error (by decide +kernel), Failure.not_isPlaced_strayDigit⟩

end Program

end Relocation
