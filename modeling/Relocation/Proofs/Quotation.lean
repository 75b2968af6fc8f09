import Relocation.Literal
import Relocation.Text.Json
import Relocation.Proofs.Units
import Mathlib.Tactic.IntervalCases

/-!
# Reading JSON literals back

`value_literal`: the value of the JSON literal of a text is that text, except that surrogates which
all find their partner are joined where the literal holds an escape.  Either way its UTF-16 code
units are kept (`halves_requoted`).
-/

namespace Relocation.Literal

/-! ## one character -/

theorem eq_char_of_value_lt {c : CodePoint} {k : Nat} (h : c.value < k) (hk : k ≤ 0xD800) :
    ∃ n < k, c = .char (Char.ofNat n) := by
  cases c with
  | char c => exact ⟨c.toNat, h, by simp⟩
  | surrogate n => simp only [CodePoint.value] at h; omega

theorem escape_controlled {c : CodePoint} (h : c.value < 0x20) (r : Text) :
    escape (.char 'u' :: Text.hexDigits 4 c.value ++ r) = .ok ([c], 5) := by
  obtain ⟨n, hn, rfl⟩ := eq_char_of_value_lt h (by decide)
  interval_cases n <;> rfl

/-- every JSON escape is a backslash and what stands for the character behind it -/
theorem escape_escaped {c : CodePoint} {e : Text} (h : Json.escaped c = some e) :
    ∃ e', e = .char '\\' :: e' ∧ ∀ r, escape (e' ++ r) = .ok ([c], e'.length) := by
  unfold Json.escaped at h
  split_ifs at h with h1 h2 h3 h4 h5 h6 h7 h8 <;> obtain rfl := Option.some.inj h
  · exact ⟨[.char '"'], rfl, fun r => by subst h1; rfl⟩
  · exact ⟨[.char '\\'], rfl, fun r => by subst h2; rfl⟩
  · exact ⟨[.char 'n'], rfl, fun r => by subst h3; rfl⟩
  · exact ⟨[.char 'r'], rfl, fun r => by subst h4; rfl⟩
  · exact ⟨[.char 't'], rfl, fun r => by subst h5; rfl⟩
  · exact ⟨[.char 'b'], rfl, fun r => by subst h6; rfl⟩
  · exact ⟨[.char 'f'], rfl, fun r => by subst h7; rfl⟩
  · exact ⟨.char 'u' :: Text.hexDigits 4 c.value, rfl, fun r => escape_controlled h8 r⟩

theorem ne_backslash_of_escaped_none {c : CodePoint} (h : Json.escaped c = none) :
    c ≠ .char '\\' := by
  rintro rfl
  exact absurd h (by decide)

/-! ## whole literals -/

theorem units_append (e r : Text) : units e.length (e ++ r) = units 0 r := by
  induction e with
  | nil => rfl
  | cons c e ih => exact ih

/-- the body of the JSON literal of a text -/
def quotedBody (t : Text) : Text := t.flatMap fun c => (Json.escaped c).getD [c]

theorem literal_eq (t : Text) : Json.literal t = .char '"' :: quotedBody t ++ [.char '"'] := rfl

theorem body_literal (t : Text) : (Json.literal t).tail.dropLast = quotedBody t := by
  simp [literal_eq]

theorem units_quotedBody (t : Text) : units 0 (quotedBody t) = .ok t := by
  induction t with
  | nil => rfl
  | cons c t ih =>
    unfold quotedBody at ih ⊢
    rw [List.flatMap_cons]
    cases he : Json.escaped c with
    | none =>
      rw [Option.getD_none, List.singleton_append, units, if_neg (ne_backslash_of_escaped_none he),
        ih]
      rfl
    | some e =>
      obtain ⟨e', rfl, hesc⟩ := escape_escaped he
      rw [Option.getD_some, List.cons_append, units, if_pos rfl, hesc]
      show (do return [c] ++ (← units e'.length (e' ++ _))) = _
      rw [units_append, ih]
      rfl

theorem quotedBody_of_escaped_none {t : Text} (h : ∀ c ∈ t, Json.escaped c = none) :
    quotedBody t = t := by
  induction t with
  | nil => rfl
  | cons c t ih =>
    unfold quotedBody at ih ⊢
    rw [List.flatMap_cons, h c (by simp), ih fun d hd => h d (by simp [hd])]
    rfl

theorem backslash_mem_quotedBody {t : Text} : .char '\\' ∈ quotedBody t ↔
    ∃ c ∈ t, Json.escaped c ≠ none := by
  constructor
  · intro h
    by_contra hn
    have hnone : ∀ c ∈ t, Json.escaped c = none := by
      intro c hc
      by_contra hne
      exact hn ⟨c, hc, hne⟩
    rw [quotedBody_of_escaped_none hnone] at h
    exact ne_backslash_of_escaped_none (hnone _ h) rfl
  · rintro ⟨c, hc, hne⟩
    obtain ⟨e, he⟩ := Option.ne_none_iff_exists'.1 hne
    obtain ⟨e', rfl, -⟩ := escape_escaped he
    exact List.mem_flatMap.2 ⟨c, hc, by simp [he]⟩

/-- what a text becomes when its JSON literal is read back -/
def requoted (t : Text) : Text :=
  if ∃ c ∈ t, Json.escaped c ≠ none then (joinPairs? t).getD t else t

theorem value_literal (t : Text) : value (Json.literal t) = .ok (requoted t) := by
  unfold value requoted
  rw [body_literal]
  by_cases h : ∃ c ∈ t, Json.escaped c ≠ none
  · have hm : (quotedBody t).contains (.char '\\') = true := by
      simpa using backslash_mem_quotedBody.2 h
    simp only [hm, units_quotedBody, if_pos h]
    rfl
  · have hm : (quotedBody t).contains (.char '\\') = false := by
      simpa using fun hb => h (backslash_mem_quotedBody.1 hb)
    have hnone : ∀ c ∈ t, Json.escaped c = none := fun c hc => by
      by_contra hne
      exact h ⟨c, hc, hne⟩
    rw [quotedBody_of_escaped_none hnone] at hm ⊢
    simp only [hm, if_neg h]
    rfl

theorem joinPairs?_of_scalar {t : Text} (h : t.all CodePoint.isScalar = true) :
    joinPairs? t = some t := by
  induction t with
  | nil => rfl
  | cons c t ih =>
    rw [List.all_cons, Bool.and_eq_true] at h
    cases c with
    | char c => rw [joinPairs?, ih h.2]; rfl
    | surrogate n => exact Bool.noConfusion h.1

theorem requoted_of_scalar {t : Text} (h : t.all CodePoint.isScalar = true) : requoted t = t := by
  unfold requoted
  rw [joinPairs?_of_scalar h]
  split_ifs <;> rfl

theorem halves_requoted (t : Text) : (requoted t).halves = t.halves := by
  unfold requoted
  split_ifs
  · cases h : joinPairs? t with
    | none => rfl
    | some t' => exact Text.halves_of_joinPairs? h
  · rfl

/-! ## units -/

theorem escaped_of_not_basic {c : CodePoint} (h : c.isBasic = false) : Json.escaped c = none := by
  have := CodePoint.value_of_isBasic_eq_false h
  have hne : ∀ d : Char, d.toNat < 0x80 → c ≠ .char d := by
    rintro d hd rfl
    simp only [CodePoint.value] at this
    omega
  unfold Json.escaped
  rw [if_neg (hne _ (by decide)), if_neg (hne _ (by decide)), if_neg (hne _ (by decide)),
    if_neg (hne _ (by decide)), if_neg (hne _ (by decide)), if_neg (hne _ (by decide)),
    if_neg (hne _ (by decide)), if_neg (by omega)]

theorem escaped_basic {c : CodePoint} {e : Text} (h : Json.escaped c = some e) :
    e.all CodePoint.isBasic = true := by
  unfold Json.escaped at h
  split_ifs at h with h1 h2 h3 h4 h5 h6 h7 h8 <;> obtain rfl := Option.some.inj h <;> try rfl
  obtain ⟨n, hn, rfl⟩ := eq_char_of_value_lt h8 (by decide)
  interval_cases n <;> rfl

theorem quotedBody_append (s t : Text) : quotedBody (s ++ t) = quotedBody s ++ quotedBody t :=
  List.flatMap_append

theorem halves_quotedBody (t : Text) : (quotedBody t).halves = quotedBody t.halves := by
  induction t with
  | nil => rfl
  | cons c t ih =>
    have hc : ((Json.escaped c).getD [c]).halves = quotedBody c.halves := by
      rcases c.halves_eq with h | ⟨hb, m, n, h⟩
      · rw [h]
        cases he : Json.escaped c with
        | none => simp [quotedBody, he, Text.halves, h]
        | some e => simp [quotedBody, he, Text.halves_eq_self (escaped_basic he)]
      · have hm : Json.escaped (.surrogate m) = none := escaped_of_not_basic rfl
        have hn : Json.escaped (.surrogate n) = none := escaped_of_not_basic rfl
        simp [escaped_of_not_basic hb, quotedBody, Text.halves, h, hm, hn]
    rw [Text.halves_cons_eq, quotedBody_append, ← hc, ← ih, ← Text.halves_append]
    rfl

theorem halves_literal (t : Text) : (Json.literal t).halves = Json.literal t.halves := by
  rw [literal_eq, literal_eq, Text.halves_append, Text.halves_cons_basic rfl, halves_quotedBody]
  rfl

end Relocation.Literal
