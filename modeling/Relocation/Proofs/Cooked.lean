import Relocation.Artifact

/-!
# The value of raw template text

`cook` reads raw text the way a template literal's value is read: escapes are decoded, octal ones
refused, and a raw carriage return, with or without a line feed behind it, counts as one line feed.
`cook_escapeRaw`: the raw text that an artifact writes for a segment has that segment for its value.
-/

namespace Relocation.Template

/-- what a backslash before the text stands for, and how many characters belong to the escape.  A
digit escapes nothing but NUL, and that only where no digit follows. -/
def escape? : Text → Option (Text × Nat)
  | [] => none
  | c :: r =>
    if c.isDecimal then
      if c = .char '0' && !r.head?.any (·.isDecimal) then some ([.char '\x00'], 1) else none
    else (Literal.escape (c :: r)).toOption

/-- the value of raw text whose first `skip` characters belong to an escape already -/
def cookFrom : (skip : Nat) → Text → Option Text
  | _, [] => some []
  | skip + 1, _ :: r => cookFrom skip r
  | 0, c :: r =>
    if c = .char '\\' then do
      let (value, n) ← escape? r
      return value ++ (← cookFrom n r)
    else if c = .char '\r' then
      if r.head? = some (.char '\n') then cookFrom 0 r else (cookFrom 0 r).map (.char '\n' :: ·)
    else (cookFrom 0 r).map (c :: ·)

/-- the value of raw text -/
def cook (t : Text) : Option Text := cookFrom 0 t

theorem cookFrom_plain {c : CodePoint} (hb : c ≠ .char '\\') (hr : c ≠ .char '\r') (t : Text) :
    cookFrom 0 (c :: t) = (cookFrom 0 t).map (c :: ·) := by
  simp [cookFrom, hb, hr]

/-- an escape that stands for the character behind the backslash -/
theorem cookFrom_self {c : CodePoint} (h : c = .char '\\' ∨ c = .char '\x60' ∨ c = .char '$')
    (t : Text) : cookFrom 0 (.char '\\' :: c :: t) = (cookFrom 0 t).map (c :: ·) := by
  have he : escape? (c :: t) = some ([c], 1) := by
    rcases h with rfl | rfl | rfl <;> rfl
  rw [cookFrom, if_pos rfl, he]
  cases h : cookFrom 0 t <;> simp [cookFrom, h]

theorem cookFrom_return (t : Text) :
    cookFrom 0 (.char '\\' :: .char 'r' :: t) = (cookFrom 0 t).map (.char '\r' :: ·) := by
  have he : escape? (.char 'r' :: t) = some ([.char '\r'], 1) := rfl
  rw [cookFrom, if_pos rfl, he]
  cases h : cookFrom 0 t <;> simp [cookFrom, h]

theorem cook_escapeRaw (t : Text) : cook (escapeRaw t) = some t := by
  unfold cook
  induction t using escapeRaw.induct with
  | case1 => rfl
  | case2 r ih =>
    rw [escapeRaw, cookFrom_self (by simp), cookFrom_plain (by decide) (by decide), ih]
    rfl
  | case3 c r _ h ih =>
    have hc : c = .char '\\' ∨ c = .char '\x60' ∨ c = .char '$' := by
      simp only [Bool.or_eq_true, decide_eq_true_eq] at h
      exact h.imp_right .inl
    rw [escapeRaw.eq_3 _ _ (by grind), if_pos h, cookFrom_self hc, ih]
    rfl
  | case4 r _ _ ih =>
    rw [escapeRaw.eq_3 _ _ (by grind), if_neg (by decide), if_pos (by decide), cookFrom_return, ih]
    rfl
  | case5 c r _ h hr ih =>
    have hb : c ≠ .char '\\' := by rintro rfl; exact h rfl
    have hr' : c ≠ .char '\r' := by rintro rfl; exact hr rfl
    rw [escapeRaw.eq_3 _ _ (by grind), if_neg h, if_neg hr, cookFrom_plain hb hr', ih]
    rfl

end Relocation.Template
