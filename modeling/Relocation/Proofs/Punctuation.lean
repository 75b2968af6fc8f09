import Mathlib.Tactic.Common
import Relocation.Proofs.Measure

/-!
# What parts a punctuator from what follows

The longest punctuator in front of a text is the one written there unless a longer one begins with
it and the character behind it (`punctuatorLength?_append`).  `leadsToBrace_gap`: looking ahead for
a brace passes over blanks and one-line comments, and stops at everything else.
-/

namespace Relocation.Lexical

variable {a p q r : Text} {c : CodePoint} {n : Nat}

/-! ## punctuators -/

/-- is the text the beginning of a punctuator? -/
def opensPunctuator (t : Text) : Bool := punctuators.any (t.isPrefixOf ·)

theorem punctuatorLength?_eq_some (h : punctuatorLength? a = some n) :
    0 < n ∧ n ≤ a.length ∧ a.take n ∈ punctuators := by
  obtain ⟨q, hq, rfl⟩ := Option.map_eq_some_iff.1 h
  have hmem := List.mem_of_find?_eq_some hq
  have hpre : q <+: a := by simpa using List.find?_some hq
  have hle := hpre.length_le
  have hpos : ∀ q ∈ punctuators, 0 < q.length := by decide
  have := hpos q hmem
  split
  · rename_i hd
    simp only [Bool.and_eq_true, decide_eq_true_eq] at hd
    obtain ⟨rfl, -⟩ := hd
    refine ⟨by omega, by omega, ?_⟩
    obtain ⟨s, rfl⟩ := hpre
    exact (by decide : [.char '?'] ∈ punctuators)
  · refine ⟨this, hle, ?_⟩
    rwa [← List.prefix_iff_eq_take.1 hpre]

theorem find?_prefix_self : ∀ q ∈ punctuators, punctuators.find? (·.isPrefixOf q) = some q := by
  decide

theorem find?_congr_of_mem {α : Type} {f g : α → Bool} {l : List α} (h : ∀ x ∈ l, f x = g x) :
    l.find? f = l.find? g := by
  induction l with
  | nil => rfl
  | cons x l ih =>
    rw [List.find?_cons, List.find?_cons, h x (by simp), ih fun y hy => h y (by simp [hy])]

/-- a text that goes on where no punctuator does -/
theorem isPrefixOf_append (hc : opensPunctuator (a ++ [c]) = false) (hq : q ∈ punctuators) :
    q.isPrefixOf (a ++ c :: r) = q.isPrefixOf a := by
  rw [Bool.eq_iff_iff, List.isPrefixOf_iff_prefix, List.isPrefixOf_iff_prefix]
  refine ⟨fun h => ?_, fun h => h.trans (List.prefix_append _ _)⟩
  have ha : a ++ [c] <+: a ++ c :: r := ⟨r, by simp⟩
  rcases Nat.lt_or_ge a.length q.length with hl | hl
  · have : a ++ [c] <+: q := List.prefix_of_prefix_length_le ha h (by simp; omega)
    simp only [opensPunctuator, List.any_eq_false, List.isPrefixOf_iff_prefix] at hc
    exact absurd this (hc q hq)
  · exact List.prefix_of_prefix_length_le h (List.prefix_append _ _) hl

theorem punctuatorLength?_append (hq : q ∈ punctuators)
    (hr : ∀ c ∈ r.head?, opensPunctuator (q ++ [c]) = false)
    (hd : q = Text.ofString "?." → ∀ c ∈ r.head?, c.isDigitValued = false) :
    punctuatorLength? (q ++ r) = some q.length := by
  have hfind : punctuators.find? (·.isPrefixOf (q ++ r)) = some q := by
    rw [← find?_prefix_self q hq]
    cases r with
    | nil => rw [List.append_nil]
    | cons c r => exact find?_congr_of_mem fun q' hq' => isPrefixOf_append (hr c rfl) hq'
  rw [punctuatorLength?, hfind, Option.map_some, if_neg]
  rintro h
  simp only [Bool.and_eq_true, decide_eq_true_eq] at h
  obtain ⟨rfl, h⟩ := h
  cases r with
  | nil => cases h
  | cons c r =>
    have := hd rfl c rfl
    simp_all [Text.ofString]

theorem opensPunctuator_point : ∀ q ∈ punctuators, q.head? = some (.char '.') →
    q = Text.ofString "..." ∨ q = Text.ofString "." := by decide

/-- two points are no punctuator, so a point before a fraction stands alone -/
theorem punctuatorLength?_point (hr : r.take 2 ≠ Text.ofString "..") :
    punctuatorLength? (.char '.' :: r) = some 1 := by
  have hself : Text.ofString "." ∈ punctuators := by decide
  have hfind : punctuators.find? (·.isPrefixOf (.char '.' :: r)) = some (Text.ofString ".") := by
    rw [← find?_prefix_self _ hself]
    refine find?_congr_of_mem fun q hq => ?_
    have hne : ∀ q ∈ punctuators, q ≠ [] := by decide
    obtain ⟨d, q', rfl⟩ := List.exists_cons_of_ne_nil (hne q hq)
    by_cases hd : d = .char '.'
    · subst hd
      rcases opensPunctuator_point _ hq rfl with h | h
      · rw [h]
        rw [Bool.eq_iff_iff, List.isPrefixOf_iff_prefix, List.isPrefixOf_iff_prefix]
        refine ⟨fun hpre => absurd ?_ hr, fun hpre => absurd hpre (by decide)⟩
        obtain ⟨s, hs⟩ := hpre
        obtain rfl : Text.ofString ".." ++ s = r := by simpa [Text.ofString] using hs
        rfl
      · rw [h]
        simp [Text.ofString, List.isPrefixOf]
    · have h1 : (d :: q').isPrefixOf (.char '.' :: r) = false := by simp [List.isPrefixOf, hd]
      have h2 : (d :: q').isPrefixOf (Text.ofString ".") = false := by
        simp [Text.ofString, List.isPrefixOf, hd]
      rw [h1, h2]
  rw [punctuatorLength?, hfind]
  rfl

/-- the text before a character that no punctuator holds is all that counts -/
theorem punctuatorLength?_append_of_foreign (hc : ∀ q ∈ punctuators, c ∉ q)
    (hd : c.isDigitValued = false) : punctuatorLength? (a ++ c :: r) = punctuatorLength? a := by
  have hfind :
      punctuators.find? (·.isPrefixOf (a ++ c :: r)) = punctuators.find? (·.isPrefixOf a) := by
    refine find?_congr_of_mem fun q hq => ?_
    rw [Bool.eq_iff_iff, List.isPrefixOf_iff_prefix, List.isPrefixOf_iff_prefix]
    refine ⟨fun h => ?_, fun h => h.trans (List.prefix_append _ _)⟩
    have ha : a ++ [c] <+: a ++ c :: r := ⟨r, by simp⟩
    rcases Nat.lt_or_ge a.length q.length with hl | hl
    · have : a ++ [c] <+: q := List.prefix_of_prefix_length_le ha h (by simp; omega)
      exact absurd (this.subset (by simp)) (hc q hq)
    · exact List.prefix_of_prefix_length_le h (List.prefix_append _ _) hl
  rw [punctuatorLength?, hfind, punctuatorLength?]
  cases hq : punctuators.find? (·.isPrefixOf a) with
  | none => rfl
  | some q =>
    have hpre : q <+: a := by simpa using List.find?_some hq
    simp only [Option.map_some]
    by_cases hp : q = Text.ofString "?."
    · have hlen : 2 ≤ a.length := by
        have := hpre.length_le
        rw [hp] at this
        exact this
      rw [List.drop_append_of_le_length hlen]
      cases a.drop 2 with
      | nil => simp [hd]
      | cons d s => rfl
    · simp [hp]

theorem punctuatorLength?_of_brace (h : punctuatorLength? (a ++ .char '\x7d' :: r) = some n) :
    punctuatorLength? a = some n := by
  rwa [punctuatorLength?_append_of_foreign (by decide) (by decide)] at h

/-! ## looking ahead for a brace -/

/-- a blank or a tab -/
def isBlank (c : CodePoint) : Bool := c = .char ' ' || c = .char '\t'

/-- a line feed or a carriage return -/
def isReturn (c : CodePoint) : Bool := c = .char '\n' || c = .char '\r'

/-- does looking ahead for a brace pass over the gap? -/
def bridges (gap : Text) : Bool :=
  gap.all isBlank || ((Text.ofString "/*").isPrefixOf gap && !gap.any isReturn)

theorem leadsToBrace_blanks (ha : a.all isWhitespace = true) :
    leadsToBrace false (a ++ r) = (a.all isBlank && leadsToBrace false r) := by
  induction a with
  | nil => simp
  | cons c a ih =>
    simp only [List.all_cons, Bool.and_eq_true] at ha
    have hs : c ≠ .char '/' := by rintro rfl; exact absurd ha.1 (by decide)
    have hb : c ≠ .char '\x7b' := by rintro rfl; exact absurd ha.1 (by decide)
    rw [List.cons_append, leadsToBrace.eq_5 _ _ (fun _ h => (hs h).elim), ih ha.2]
    simp [hb, isBlank, Bool.and_assoc]

theorem leadsToBrace_comment {a : Text} : commentLength? a = some a.length →
    leadsToBrace true (a ++ r) = (!a.any isReturn && leadsToBrace false r) := by
  fun_induction commentLength? a with
  | case1 => intro h; cases h
  | case2 t =>
    intro h
    obtain rfl : t = [] := by simpa using h
    rfl
  | case3 c t h1 ih =>
    intro h
    obtain ⟨m, hm, hlen⟩ := Option.map_eq_some_iff.1 h
    have hm' : m = t.length := by simpa using hlen
    subst hm'
    obtain ⟨d, t, rfl⟩ := List.exists_cons_of_length_pos (commentLength?_spec hm).1
    rw [List.cons_append, leadsToBrace.eq_3 _ _ (fun _ hc hd => h1 t hc (by cases hd; rfl)), ih hm]
    simp [isReturn, Bool.and_assoc, bne, beq_eq_decide]

theorem leadsToBrace_stops {c : CodePoint}
    (h : c ∉ [.char ' ', .char '\t', .char '\x7b', .char '/']) :
    leadsToBrace false (c :: r) = false := by
  simp only [List.mem_cons, not_or] at h
  rw [leadsToBrace.eq_5 _ _ (fun _ hc => (h.2.2.2.1 hc).elim)]
  simp [h]

end Relocation.Lexical
