import Mathlib.Data.List.Basic
import Relocation.Proofs.Refusal

/-!
# What numbers are made of

A number has a radix letter and digits of the radix, or it is made of decimal digits, points and an
exponent (`Lexical.exists_numeral`).  So its characters are known, decimal digits of other scripts
apart, and it ends like none of the words behind which an expression begins
(`Lexical.not_operator_of_number`).
-/

namespace Relocation.Lexical

variable {p : CodePoint → Bool} {c : CodePoint} {t r : Text}

/-- a digit, a low line or a point -/
def isFractionPart (c : CodePoint) : Bool := isDecimalPart c || c = .char '.'

/-- a number without the suffix of big integers -/
inductive Numeral : Text → Prop
  | radix {x : CodePoint} {p : CodePoint → Bool} {ds : Text} (hx : radixPart? x = some p)
    (hne : ds ≠ []) (hds : ds.all p = true) : Numeral (.char '0' :: x :: ds)
  | decimal {m : Text} (hm : m.all isFractionPart = true) : Numeral m
  | exponent {m signs ds : Text} {e : CodePoint} (hm : m.all isFractionPart = true)
    (he : e = .char 'e' ∨ e = .char 'E') (hsigns : signs.all isSign = true) (hne : ds ≠ [])
    (hds : ds.all isDecimalPart = true) :
    Numeral (m ++ e :: (signs ++ ds))

/-! ## how far each part reaches -/

theorem all_take_runLength (p : CodePoint → Bool) (t : Text) :
    (t.take (runLength p t)).all p = true :=
  (runLength_take p t).2.1

theorem all_take_optionalLength (p : CodePoint → Bool) (t : Text) :
    (t.take (optionalLength p t)).all p = true := by
  cases t with
  | nil => rfl
  | cons c r =>
    rw [optionalLength]
    split
    · simpa using ‹p c = true›
    · rfl

theorem isFractionPart_of_isDecimal (h : c.isDecimal = true) : isFractionPart c = true := by
  simp [isFractionPart, isDecimalPart, h]

theorem all_isFractionPart (h : t.all isDecimalPart = true) : t.all isFractionPart = true := by
  rw [List.all_eq_true] at h ⊢
  intro c hc
  simp [isFractionPart, h c hc]

theorem all_take_mantissaLength (t : Text) :
    (t.take (mantissaLength t)).all isFractionPart = true := by
  unfold mantissaLength
  split
  · rename_i d r
    split
    · rw [Nat.add_comm, List.take_succ_cons, List.take_succ_cons, List.all_cons, List.all_cons,
        isFractionPart_of_isDecimal ‹d.isDecimal = true›,
        all_isFractionPart (all_take_runLength _ _)]
      decide
    · rfl
  · rename_i c r _
    split
    · have hpoint :
          ∀ s : Text, (s.take (optionalLength (· = .char '.') s)).all isFractionPart = true := by
        intro s
        have := all_take_optionalLength (· = .char '.') s
        rw [List.all_eq_true] at this ⊢
        intro c hc
        obtain rfl : c = .char '.' := by simpa using this c hc
        rfl
      simp only [Nat.add_assoc]
      rw [Nat.add_comm 1, List.take_succ_cons, List.all_cons, isFractionPart_of_isDecimal ‹_›,
        List.take_add, List.take_add, List.all_append, List.all_append,
        all_isFractionPart (all_take_runLength _ _), hpoint]
      split
      · simp
      · rw [List.drop_drop, all_isFractionPart (all_take_runLength _ _)]
        rfl
    · rfl
  · rfl

theorem take_digitsLength (h : digitsLength t ≠ 0) :
    t.take (digitsLength t) ≠ [] ∧ (t.take (digitsLength t)).all isDecimalPart = true := by
  cases t with
  | nil => cases h rfl
  | cons c r =>
    simp only [digitsLength] at h ⊢
    split at h
    · rename_i hc
      rw [if_pos hc, Nat.add_comm, List.take_succ_cons, List.all_cons, all_take_runLength]
      simp [isDecimalPart, hc]
    · cases h rfl

theorem exists_of_exponentLength (h : exponentLength t ≠ 0) :
    ∃ e signs ds, t.take (exponentLength t) = e :: (signs ++ ds) ∧
    (e = .char 'e' ∨ e = .char 'E') ∧ signs.all isSign = true ∧ ds ≠ [] ∧
    ds.all isDecimalPart = true := by
  cases t with
  | nil => cases h rfl
  | cons c r =>
    rw [exponentLength_cons] at h ⊢
    split at h
    · rename_i he
      rw [if_pos he]
      split at h
      · cases h rfl
      · rename_i hdigits
        obtain ⟨hne, hall⟩ := take_digitsLength hdigits
        refine ⟨c, r.take (optionalLength isSign r), _,
          ?_, by simpa using he, all_take_optionalLength _ _, hne, hall⟩
        rw [if_neg hdigits, Nat.add_assoc, Nat.add_comm 1, List.take_succ_cons, List.take_add]
    · cases h rfl

/-! ## numbers -/

theorem numeral_of_unsuffixedLength (h : unsuffixedLength t = t.length) (ht : t ≠ []) :
    Numeral t := by
  unfold unsuffixedLength at h
  split at h
  · by_cases he : exponentLength (t.drop (mantissaLength t)) = 0
    · have hall := all_take_mantissaLength t
      rw [he, Nat.add_zero] at h
      rw [h, List.take_length] at hall
      exact .decimal hall
    · obtain ⟨e, signs, ds, htake, hexp, hsigns, hne, hds⟩ := exists_of_exponentLength he
      have hdrop : (t.drop (mantissaLength t)).take (exponentLength (t.drop (mantissaLength t))) =
          t.drop (mantissaLength t) := by
        rw [List.take_of_length_le]
        rw [List.length_drop]
        omega
      rw [← List.take_append_drop (mantissaLength t) t, ← hdrop, htake]
      exact .exponent (all_take_mantissaLength t) hexp hsigns hne hds
  · rename_i hradix
    match t with
    | [] => exact absurd rfl ht
    | [c] => exact absurd (radixLength_singleton c) hradix
    | c :: d :: ds =>
      rw [radixLength_cons_cons] at h hradix
      by_cases hc : c = .char '0'
      · subst hc
        cases hp : radixPart? d with
        | none => simp [hp] at hradix
        | some p =>
          simp only [hp, if_true] at h hradix
          by_cases hrun : runLength p ds = 0
          · simp [hrun] at hradix
          · have hlength : runLength p ds = ds.length := by
              rw [if_neg hrun, List.length_cons, List.length_cons] at h
              omega
            have hall := all_take_runLength p ds
            rw [hlength, List.take_length] at hall
            refine .radix hp ?_ hall
            rintro rfl
            exact hrun rfl
      · simp [hc] at hradix

theorem exists_numeral (h : numberLength t = t.length) (ht : t ≠ []) :
    ∃ body suffix, t = body ++ suffix ∧ (suffix = [] ∨ suffix = [.char 'n']) ∧ body ≠ [] ∧
    Numeral body := by
  have hle := unsuffixedLength_le t
  have hne : unsuffixedLength t ≠ 0 := by
    intro hzero
    rw [numberLength_eq, if_pos hzero] at h
    exact ht (List.length_eq_zero_iff.1 h.symm)
  rw [numberLength_eq, if_neg hne] at h
  have hbody :
      unsuffixedLength (t.take (unsuffixedLength t)) = (t.take (unsuffixedLength t)).length := by
    have hfront : unsuffixedLength (t.take (unsuffixedLength t) ++ t.drop (unsuffixedLength t)) =
        unsuffixedLength (t.take (unsuffixedLength t)) := by
      refine unsuffixedLength_of_le (Nat.le_of_eq ?_)
      rw [List.take_append_drop, List.length_take_of_le hle]
    rw [← hfront, List.take_append_drop, List.length_take_of_le hle]
  have hsuffix : (t.drop (unsuffixedLength t)).all (· = .char 'n') = true := by
    have := all_take_optionalLength (· = .char 'n') (t.drop (unsuffixedLength t))
    rwa [List.take_of_length_le (by rw [List.length_drop]; omega)] at this
  have hbodyne : t.take (unsuffixedLength t) ≠ [] := by
    rw [Ne, List.take_eq_nil_iff]
    simp [hne, ht]
  refine ⟨_, _, (List.take_append_drop (unsuffixedLength t) t).symm, ?_, hbodyne,
    numeral_of_unsuffixedLength hbody hbodyne⟩
  have hlength : (t.drop (unsuffixedLength t)).length ≤ 1 := by
    have hone : ∀ s : Text, optionalLength (· = .char 'n') s ≤ 1 := by
      intro s
      cases s with
      | nil => simp [optionalLength]
      | cons c s => simp only [optionalLength]; split <;> omega
    have := hone (t.drop (unsuffixedLength t))
    rw [List.length_drop]
    omega
  cases hdrop : t.drop (unsuffixedLength t) with
  | nil => exact .inl rfl
  | cons c r =>
    cases r with
    | nil => simpa [hdrop] using hsuffix
    | cons => simp [hdrop] at hlength

/-! ## the characters of numbers -/

/-- characters of numbers that begin a name -/
def numericLetters : List CodePoint := Text.ofString "_abcdefABCDEFxXoOn"

/-- characters of numbers that begin a punctuator -/
def numericSigns : List CodePoint := Text.ofString ".+-"

/-- the characters that numbers are made of -/
def isNumeric (c : CodePoint) : Bool :=
  c.isDecimal || numericLetters.contains c || numericSigns.contains c

theorem isNumeric_of_isHexPart (h : isHexPart c = true) : isNumeric c = true := by
  simp only [isHexPart, Bool.or_eq_true, decide_eq_true_eq] at h
  rcases h with (h | h) | rfl
  · have hascii : ∀ n < 0x80, CodePoint.isHex (.char (Char.ofNat n)) = true →
        isNumeric (.char (Char.ofNat n)) = true := by decide +kernel
    have hvalue : c.value < 0x80 := by
      simp only [CodePoint.isHex, Bool.or_eq_true, Bool.and_eq_true, decide_eq_true_eq] at h
      omega
    cases c with
    | surrogate n =>
      rw [CodePoint.value] at hvalue
      omega
    | char c =>
      have := hascii c.toNat hvalue
      rw [Char.ofNat_toNat] at this
      exact this h
  · simp [isNumeric, h]
  · decide

theorem isDigitValued_of_isWhitespace (h : isWhitespace c = true) : c.isDigitValued = false := by
  have hvalue : c.value ∈ [0x09, 0x0B, 0x0C, 0x20, 0xA0, 0x1680, 0x202F, 0x205F, 0x3000, 0xFEFF] ++
      List.range' 0x2000 11 := by
    simp only [isWhitespace, Bool.or_eq_true, Bool.and_eq_true, decide_eq_true_eq,
      List.contains_eq_mem] at h
    rw [List.mem_append, List.mem_range'_1]
    exact h.imp id fun h => by omega
  have hall :
      ∀ v ∈ [0x09, 0x0B, 0x0C, 0x20, 0xA0, 0x1680, 0x202F, 0x205F, 0x3000, 0xFEFF] ++
        List.range' 0x2000 11, ((if v < 0x80 then decide (0x30 ≤ v) && decide (v ≤ 0x39)
        else CodePoint.decimalRanges.any fun r => decide (r.1 ≤ v) && decide (v ≤ r.2)) ||
        CodePoint.digitValuedRanges.any fun r => decide (r.1 ≤ v) && decide (v ≤ r.2)) = false := by
    decide
  exact hall _ hvalue

theorem isPlain_of_isDigitValued (h : c.isDigitValued = true) : Token.Context.isPlain c = true := by
  have hsigns :
      ∀ d ∈ [CodePoint.char '(', .char ')', .char '[', .char ']', .char '\x7b', .char '\x7d',
        .char '\x60', .char '"', .char '\''], d.isDigitValued = false := by decide
  simp only [Token.Context.isPlain, Bool.and_eq_true, Bool.not_eq_true', List.contains_eq_mem,
    decide_eq_false_iff_not]
  refine ⟨⟨?_, ?_⟩, fun hmem => by simp [hsigns c hmem] at h⟩
  · by_contra hw
    simp [isDigitValued_of_isWhitespace (by simpa using hw)] at h
  · by_contra ht
    simp only [Bool.not_eq_false, CodePoint.isLineTerminator, Bool.or_eq_true, decide_eq_true_eq]
      at ht
    rcases ht with ((rfl | rfl) | rfl) | rfl <;> exact absurd h (by decide)

theorem radixPart?_cases {x : CodePoint} (hx : radixPart? x = some p) :
    (x = .char 'x' ∨ x = .char 'X') ∧ p = isHexPart ∨ (x = .char 'o' ∨ x = .char 'O') ∧
    p = isOctalPart ∨
      (x = .char 'b' ∨ x = .char 'B') ∧ p = isBinaryPart := by
  unfold radixPart? at hx
  grind

/-- the digits of every radix are hexadecimal digits -/
theorem isHexPart_of_radixPart? {x : CodePoint} (hx : radixPart? x = some p) (hc : p c = true) :
    isHexPart c = true := by
  rcases radixPart?_cases hx with ⟨-, rfl⟩ | ⟨-, rfl⟩ | ⟨-, rfl⟩
  · exact hc
  · simp only [isOctalPart, CodePoint.isOctal, isHexPart, CodePoint.isHex, Bool.or_eq_true,
      Bool.and_eq_true, decide_eq_true_eq] at hc ⊢
    rcases hc with hc | hc
    · exact .inl (.inl (.inl (.inl ⟨hc.1, by omega⟩)))
    · exact .inr hc
  · simp only [isBinaryPart, Bool.or_eq_true, decide_eq_true_eq] at hc
    rcases hc with (rfl | rfl) | rfl <;> decide

theorem isHexPart_of_isDecimalPart (h : isDecimalPart c = true) : isHexPart c = true := by
  simp only [isDecimalPart, Bool.or_eq_true] at h
  rcases h with h | h <;> simp [isHexPart, h]

theorem isNumeric_of_isFractionPart (h : isFractionPart c = true) : isNumeric c = true := by
  simp only [isFractionPart, Bool.or_eq_true, decide_eq_true_eq] at h
  rcases h with h | rfl
  · exact isNumeric_of_isHexPart (isHexPart_of_isDecimalPart h)
  · decide

theorem Numeral.isNumeric (h : Numeral t) : ∀ c ∈ t, isNumeric c = true := by
  cases h with
  | radix hx hne hds =>
    intro c hc
    rcases List.mem_cons.1 hc with rfl | hc
    · decide
    rcases List.mem_cons.1 hc with rfl | hc
    · rcases radixPart?_cases hx with ⟨rfl | rfl, -⟩ | ⟨rfl | rfl, -⟩ | ⟨rfl | rfl, -⟩ <;> decide
    · exact isNumeric_of_isHexPart (isHexPart_of_radixPart? hx (List.all_eq_true.1 hds c hc))
  | decimal hm => exact fun c hc => isNumeric_of_isFractionPart (List.all_eq_true.1 hm c hc)
  | exponent hm he hsigns hne hds =>
    intro c hc
    simp only [List.mem_append, List.mem_cons] at hc
    rcases hc with hc | rfl | hc | hc
    · exact isNumeric_of_isFractionPart (List.all_eq_true.1 hm c hc)
    · rcases he with rfl | rfl <;> decide
    · have : c = .char '+' ∨ c = .char '-' := by simpa [isSign] using List.all_eq_true.1 hsigns c hc
      rcases this with rfl | rfl <;> decide
    · exact isNumeric_of_isHexPart (isHexPart_of_isDecimalPart (List.all_eq_true.1 hds c hc))

/-- a number does not end in its sign or its radix letter -/
theorem Numeral.getLast? (h : Numeral t) : ∀ c ∈ t.getLast?, isHexPart c = true ∨
    c = .char '.' := by
  have hdigits : ∀ {a ds : Text} {p : CodePoint → Bool}, (∀ c, p c = true → isHexPart c = true) →
      ds ≠ [] → ds.all p = true → ∀ c ∈ (a ++ ds).getLast?, isHexPart c = true := by
    intro a ds p hp hne hds c hc
    rw [List.getLast?_append_of_ne_nil _ hne] at hc
    exact hp c (List.all_eq_true.1 hds c (List.mem_of_getLast? hc))
  cases h with
  | @radix x p ds hx hne hds =>
    exact fun c hc =>
      .inl (hdigits (a := [.char '0', x]) (fun _ => isHexPart_of_radixPart? hx) hne hds c hc)
  | decimal hm =>
    intro c hc
    have := List.all_eq_true.1 hm c (List.mem_of_getLast? hc)
    simp only [isFractionPart, Bool.or_eq_true, decide_eq_true_eq] at this
    exact this.imp_left isHexPart_of_isDecimalPart
  | @exponent m signs ds e hm he hsigns hne hds =>
    intro c hc
    rw [← List.cons_append, ← List.append_assoc] at hc
    exact .inl (hdigits (fun _ => isHexPart_of_isDecimalPart) hne hds c hc)

/-- no number has an octal radix letter before a letter -/
theorem Numeral.not_of (h : Numeral t) {a : Text} : t ≠ a ++ Text.ofString "of" := by
  rintro rfl
  have ho : CodePoint.char 'o' ∈ a ++ Text.ofString "of" := List.mem_append_right a (by decide)
  have hlast : (a ++ Text.ofString "of").getLast? = some (.char 'f') := by
    rw [List.getLast?_append_of_ne_nil _ (by decide)]
    decide
  generalize a ++ Text.ofString "of" = t at *
  cases h with
  | @radix x p ds hx hne hds =>
    have hf : p (.char 'f') = true := by
      rw [show CodePoint.char '0' :: x :: ds = [.char '0', x] ++ ds from rfl,
        List.getLast?_append_of_ne_nil _ hne] at hlast
      exact List.all_eq_true.1 hds _ (List.mem_of_getLast? hlast)
    rcases radixPart?_cases hx with ⟨hletter, rfl⟩ | ⟨-, rfl⟩ | ⟨-, rfl⟩
    · rcases List.mem_cons.1 ho with ho | ho
      · cases ho
      rcases List.mem_cons.1 ho with rfl | ho
      · exact absurd hletter (by decide)
      · exact absurd (List.all_eq_true.1 hds _ ho) (by decide)
    · exact absurd hf (by decide)
    · exact absurd hf (by decide)
  | decimal hm => exact absurd (List.all_eq_true.1 hm _ ho) (by decide)
  | exponent hm he hsigns hne hds =>
    simp only [List.mem_append, List.mem_cons] at ho
    rcases ho with ho | rfl | ho | ho
    · exact absurd (List.all_eq_true.1 hm _ ho) (by decide)
    · simp at he
    · exact absurd (List.all_eq_true.1 hsigns _ ho) (by decide)
    · exact absurd (List.all_eq_true.1 hds _ ho) (by decide)

theorem isNumeric_of_number (h : numberLength t = t.length) : ∀ c ∈ t, isNumeric c = true := by
  intro c hc
  obtain ⟨body, suffix, rfl, hsuffix, -, hbody⟩ := exists_numeral h (List.ne_nil_of_mem hc)
  rcases List.mem_append.1 hc with hc | hc
  · exact hbody.isNumeric c hc
  · rcases hsuffix with rfl | rfl
    · cases hc
    · obtain rfl := List.mem_singleton.1 hc
      decide

theorem getLast?_of_number (h : numberLength t = t.length) :
    ∀ c ∈ t.getLast?, isHexPart c = true ∨ c = .char '.' ∨ c = .char 'n' := by
  intro c hc
  obtain ⟨body, suffix, rfl, hsuffix, -, hbody⟩ := exists_numeral h (by rintro rfl; cases hc)
  rcases hsuffix with rfl | rfl
  · rw [List.append_nil] at hc
    exact (hbody.getLast? c hc).imp_right .inl
  · rw [List.getLast?_append_of_ne_nil _ (by decide)] at hc
    exact .inr (.inr (Option.some.inj hc).symm)

/-- a number ends in no word behind which an expression begins -/
theorem not_operator_of_number (h : numberLength t = t.length) {a w : Text} (ht : t = a ++ w) :
    w ∉ Token.operatorWords := by
  intro hw
  have hne : w ≠ [] := by
    have hall : ∀ w ∈ Token.operatorWords, w ≠ [] := by decide
    exact hall w hw
  have hnumeric : w.all isNumeric = true :=
    List.all_eq_true.2 fun c hc => isNumeric_of_number h c (ht ▸ List.mem_append_right a hc)
  have htwo : ∀ w ∈ Token.operatorWords, w.all isNumeric = true → w = Text.ofString "of" ∨
      w = Text.ofString "do" := by
    decide
  obtain ⟨body, suffix, hbody, hsuffix, -, hnumeral⟩ := exists_numeral h (by simp [ht, hne])
  rcases htwo w hw hnumeric with rfl | rfl
  · rcases hsuffix with rfl | rfl
    · rw [List.append_nil] at hbody
      exact hnumeral.not_of (hbody.symm.trans ht)
    · have := congrArg List.getLast? (hbody.symm.trans ht)
      rw [List.getLast?_append_of_ne_nil _ (by decide),
        List.getLast?_append_of_ne_nil _ (by decide)] at this
      exact absurd this (by decide)
  · have hlast : t.getLast? = some (.char 'o') := by
      rw [ht, List.getLast?_append_of_ne_nil _ (by decide)]
      decide
    rcases getLast?_of_number h _ hlast with ho | ho | ho
    · exact absurd ho (by decide)
    · cases ho
    · cases ho

end Relocation.Lexical
