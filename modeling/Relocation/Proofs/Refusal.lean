import Relocation.Proofs.Cutting

/-!
# Where cutting stops

A number is refused where a stray digit comes (`Refuses.eq_strayDigit`).
`Lexeme.cuts_of_cutFrom_error`: cutting that ends early ends at a front that is refused.
-/

namespace Relocation

open Lexical

/-- a character that has a digit value and is no decimal digit -/
def CodePoint.isStrayDigit (c : CodePoint) : Bool := c.isDigitValued && !c.isDecimal

namespace Lexical

variable {c : CodePoint} {r : Text}

theorem numberLength_eq_zero {t : Text} : numberLength t = 0 ↔ unsuffixedLength t = 0 := by
  rw [numberLength_eq]
  split
  · simp_all
  · omega

/-- a number begins with a decimal digit or a point -/
theorem unsuffixedLength_of_not_isDecimal (hc : c.isDecimal = false) (hpoint : c ≠ .char '.')
    (hexp : (c = .char 'e' || c = .char 'E') = false) : unsuffixedLength (c :: r) = 0 := by
  have hradix : radixLength (c :: r) = 0 := by
    cases r with
    | nil => exact radixLength_singleton c
    | cons d r => rw [radixLength_cons_cons, if_neg (by rintro rfl; exact absurd hc (by decide))]
  have hmantissa : mantissaLength (c :: r) = 0 := by
    rw [mantissaLength_cons hpoint, if_neg (by simp [hc])]
  rw [unsuffixedLength, if_pos hradix, hmantissa, List.drop_zero, exponentLength_cons,
    if_neg (by simp [hexp])]

theorem unsuffixedLength_of_isDecimal (hc : c.isDecimal = true) :
    unsuffixedLength (c :: r) ≠ 0 := by
  have hpoint : c ≠ .char '.' := by rintro rfl; exact absurd hc (by decide)
  rw [unsuffixedLength]
  split
  · rw [mantissaLength_cons hpoint, if_pos hc]
    simp only
    omega
  · assumption

theorem unsuffixedLength_point (d : CodePoint) (r : Text) :
    unsuffixedLength (.char '.' :: d :: r) = 0 ↔ d.isDecimal = false := by
  rw [unsuffixedLength, if_pos (by rw [radixLength_cons_cons, if_neg (by decide)]),
    mantissaLength_point]
  cases hd : d.isDecimal with
  | true => simp
  | false =>
    have : exponentLength (.char '.' :: d :: r) = 0 := by
      rw [exponentLength_cons, if_neg (by decide)]
    simp [this]

end Lexical

namespace Token.Context

/-- does a character come that announces a number and begins none? -/
def opensStrayDigit (c : CodePoint) (r : Text) : Bool :=
  c.isStrayDigit || (c = .char '.' && r.head?.any (·.isStrayDigit))

variable {ctx : Context} {c : CodePoint} {r : Text} {e : Refusal}

/-- where a number should begin, it does unless the digit is a stray one -/
theorem numberLength_of_opensNumber (ho : opensNumber c r = true) :
    numberLength (c :: r) = 0 ↔ opensStrayDigit c r = true := by
  rw [numberLength_eq_zero]
  by_cases hpoint : c = .char '.'
  · subst hpoint
    cases r with
    | nil => exact absurd ho (by decide)
    | cons d r =>
      have hd : d.isDigitValued = true := by
        simpa [opensNumber, (by decide : CodePoint.isDigitValued (.char '.') = false)] using ho
      rw [unsuffixedLength_point]
      simp [opensStrayDigit, CodePoint.isStrayDigit, hd,
        (by decide : CodePoint.isDigitValued (.char '.') = false)]
  · have hc : c.isDigitValued = true := by simpa [opensNumber, hpoint] using ho
    have hexp : (c = .char 'e' || c = .char 'E') = false := by
      rw [Bool.or_eq_false_iff, decide_eq_false_iff_not, decide_eq_false_iff_not]
      constructor <;> · rintro rfl; exact absurd hc (by decide)
    cases hd : c.isDecimal with
    | true =>
      simp [unsuffixedLength_of_isDecimal hd, opensStrayDigit, CodePoint.isStrayDigit, hd, hpoint]
    | false =>
      simp [unsuffixedLength_of_not_isDecimal hd hpoint hexp, opensStrayDigit,
        CodePoint.isStrayDigit, hd, hc]

theorem opensNumber_of_opensStrayDigit (h : opensStrayDigit c r = true) :
    opensNumber c r = true := by
  simp only [opensStrayDigit, CodePoint.isStrayDigit, opensNumber, Bool.or_eq_true,
    Bool.and_eq_true, Option.any_eq_true]
      at h ⊢
  rcases h with h | ⟨hc, d, hd, h⟩
  · exact .inl h.1
  · exact .inr ⟨hc, d, hd, h.1⟩

/-- a stray digit is what is refused just where one comes -/
theorem Refuses.eq_strayDigit (h : Refuses ctx c r e) : e = .strayDigit ↔
    opensStrayDigit c r = true := by
  constructor
  · rintro rfl
    cases h with
    | digit hc ho hnone => exact (numberLength_of_opensNumber ho).1 hnone
  · intro hd
    cases h with
    | digit => rfl
    | character hc ho => exact absurd (opensNumber_of_opensStrayDigit hd) (by simp [ho])
    | comment hc => subst hc; exact absurd hd (by simp [opensStrayDigit]; decide)
    | resume hc => subst hc; exact absurd hd (by simp [opensStrayDigit]; decide)
    | template hc => subst hc; exact absurd hd (by simp [opensStrayDigit]; decide)
    | string hc => rcases hc with rfl | rfl <;> exact absurd hd (by simp [opensStrayDigit]; decide)
    | regex hc => subst hc; exact absurd hd (by simp [opensStrayDigit]; decide)

end Token.Context

namespace Lexeme

variable {ctx : Token.Context} {ls : List Lexeme} {t : Text} {e : Token.Context.Refusal}

/-- behind lexemes cutting goes on with what is left -/
theorem cutFrom_textOf_append (h : Cuts ctx ls t) :
    cutFrom ctx 0 (textOf ls ++ t) =
      (ls ++ (cutFrom (contextAfter ctx ls) 0 t).1, (cutFrom (contextAfter ctx ls) 0 t).2) := by
  induction ls generalizing ctx with
  | nil => rfl
  | cons l ls ih =>
    obtain ⟨hl, hls⟩ := h
    rw [textOf_cons, List.append_assoc, cutFrom_of_stands hl, ih hls]
    rfl

/-- cutting that ends early ends at a front that is refused in the context behind the lexemes -/
theorem cuts_of_cutFrom_error (h : cutFrom ctx 0 t = (ls, some e)) :
    ∃ c r, t = textOf ls ++ c :: r ∧ Cuts ctx ls (c :: r) ∧
    (contextAfter ctx ls).Refuses c r e := by
  obtain ⟨rest, rfl, hcuts, hrest⟩ := cuts_of_cutFrom_eq h
  cases rest with
  | nil => exact absurd (hrest.2 rfl) (by simp)
  | cons c r =>
    refine ⟨c, r, rfl, hcuts, ?_⟩
    rw [cutFrom_textOf_append hcuts] at h
    obtain ⟨hlexemes, hstopped⟩ := Prod.mk.inj h
    rw [cutFrom] at hlexemes hstopped
    split at hstopped
    · rename_i hfront
      obtain rfl := Option.some.inj hstopped
      exact Token.Context.front_eq_error.1 hfront
    · rename_i hfront
      simp [hfront] at hlexemes

end Lexeme

end Relocation
