import Mathlib.Tactic.Common
import Relocation.Token.Lexical

/-!
# How far a lexeme reaches

What the measures of the lexical grammar depend on.  A literal with a closing delimiter is measured
by its own characters alone (`stringLength?_spec`, `templateLength?_spec`, `regexLength?_spec`,
`commentLength?_spec`); a run, a number and a punctuator also by the character behind them.
-/

namespace Relocation.Lexical

/-- the text is empty, or begins with a character outside of the class -/
def Stops (p : CodePoint → Bool) (t : Text) : Prop := ∀ c ∈ t.head?, p c = false

variable {p : CodePoint → Bool} {a r : Text} {c : CodePoint} {n : Nat}

@[simp] theorem stops_nil : Stops p [] := by simp [Stops]

@[simp] theorem stops_cons : Stops p (c :: r) ↔ p c = false := by simp [Stops]

/-! ## runs -/

theorem runLength_le (p : CodePoint → Bool) (t : Text) : runLength p t ≤ t.length :=
  (List.takeWhile_sublist p).length_le

theorem runLength_cons : runLength p (c :: r) = if p c then runLength p r + 1 else 0 := by
  unfold runLength
  rw [List.takeWhile_cons]
  split <;> simp

@[simp] theorem runLength_nil : runLength p [] = 0 := rfl

theorem runLength_eq_zero : runLength p r = 0 ↔ Stops p r := by
  cases r with
  | nil => simp
  | cons c r => simp [runLength_cons]

theorem runLength_append_of_stops (h : Stops p r) : runLength p (a ++ r) = runLength p a := by
  induction a with
  | nil => exact runLength_eq_zero.2 h
  | cons c a ih => simp only [List.cons_append, runLength_cons, ih]

theorem runLength_append : runLength p (a ++ r) = a.length ↔ a.all p = true ∧ Stops p r := by
  induction a with
  | nil => simp [runLength_eq_zero]
  | cons c a ih =>
    simp only [List.cons_append, runLength_cons, List.length_cons, List.all_cons, Bool.and_eq_true]
    split
    · simp_all
    · simp_all

/-! ## literals -/

theorem stringLength?_spec {quote : CodePoint} (hquote : quote ≠ .char '\\') {t : Text} :
    ∀ {n : Nat}, stringLength? quote t = some n →
      0 < n ∧ n ≤ t.length ∧ ∀ r, stringLength? quote (t.take n ++ r) = some n := by
  fun_induction stringLength? quote t with
  | case1 => intro n h; cases h
  | case2 t ih =>
    intro n h
    obtain ⟨m, hm, rfl⟩ := Option.map_eq_some_iff.1 h
    obtain ⟨hpos, hle, hr⟩ := ih hm
    refine ⟨by omega, by simp only [List.length_cons]; omega, fun r => ?_⟩
    simp [stringLength?, hr]
  | case3 x t hx ih =>
    intro n h
    obtain ⟨m, hm, rfl⟩ := Option.map_eq_some_iff.1 h
    obtain ⟨hpos, hle, hr⟩ := ih hm
    refine ⟨by omega, by simp only [List.length_cons]; omega, fun r => ?_⟩
    -- the closing quote is still to come, so the character behind `x` is the same in both texts
    obtain ⟨k, rfl⟩ : ∃ k, m = k + 1 := ⟨m - 1, by omega⟩
    obtain ⟨y, t, rfl⟩ : ∃ y t', t = y :: t' := List.exists_cons_of_length_pos (by omega)
    have hr := hr r
    simp only [List.take_succ_cons, List.cons_append] at hr ⊢
    rw [stringLength?.eq_3 _ _ _ (fun _ hx' hy => by cases hy; exact hx _ hx' rfl), hr]
    rfl
  | case4 t =>
    intro n h
    cases h
    refine ⟨by omega, by simp, fun r => ?_⟩
    rw [List.take_succ_cons, List.take_zero, List.cons_append, List.nil_append,
      stringLength?.eq_4 _ _ _ (fun _ h => (hquote h).elim) (fun _ _ h => (hquote h).elim),
      if_pos rfl]
  | case5 => intro n h; cases h
  | case6 c t h1 h2 hq hnl ih =>
    intro n h
    obtain ⟨m, hm, rfl⟩ := Option.map_eq_some_iff.1 h
    obtain ⟨hpos, hle, hr⟩ := ih hm
    have hc : c ≠ .char '\\' := by
      rintro rfl
      obtain ⟨y, t, rfl⟩ := List.exists_cons_of_length_pos (show 0 < t.length by omega)
      exact h2 _ _ rfl rfl
    refine ⟨by omega, by simp only [List.length_cons]; omega, fun r => ?_⟩
    rw [List.take_succ_cons, List.cons_append,
      stringLength?.eq_4 _ _ _ (fun _ h => (hc h).elim) (fun _ _ h => (hc h).elim), if_neg hq,
      if_neg hnl, hr]
    rfl

theorem commentLength?_spec {t : Text} : ∀ {n : Nat}, commentLength? t = some n →
    0 < n ∧ n ≤ t.length ∧ ∀ r, commentLength? (t.take n ++ r) = some n := by
  fun_induction commentLength? t with
  | case1 => intro n h; cases h
  | case2 t =>
    intro n h
    cases h
    exact ⟨by omega, by simp, fun r => rfl⟩
  | case3 c t h1 ih =>
    intro n h
    obtain ⟨m, hm, rfl⟩ := Option.map_eq_some_iff.1 h
    obtain ⟨hpos, hle, hr⟩ := ih hm
    refine ⟨by omega, by simp only [List.length_cons]; omega, fun r => ?_⟩
    obtain ⟨k, rfl⟩ : ∃ k, m = k + 1 := ⟨m - 1, by omega⟩
    obtain ⟨y, t, rfl⟩ : ∃ y t', t = y :: t' := List.exists_cons_of_length_pos (by omega)
    have hr := hr r
    simp only [List.take_succ_cons, List.cons_append] at hr ⊢
    rw [commentLength?.eq_3 _ _ (fun _ hc hy => by cases hy; exact h1 _ hc rfl), hr]
    rfl

theorem templateLength?_spec {t : Text} :
    ∀ {n : Nat} {opens : Bool}, templateLength? t = some (n, opens) →
    0 < n ∧ n ≤ t.length ∧ ∀ r, templateLength? (t.take n ++ r) = some (n, opens) := by
  fun_induction templateLength? t with
  | case1 => intro n opens h; cases h
  | case2 x t ih =>
    intro n opens h
    obtain ⟨⟨m, o⟩, hm, he⟩ := Option.map_eq_some_iff.1 h
    cases he
    obtain ⟨hpos, hle, hr⟩ := ih hm
    refine ⟨by omega, by simp only [List.length_cons]; omega, fun r => ?_⟩
    simp [templateLength?, hr]
  | case3 t =>
    intro n opens h
    cases h
    exact ⟨by omega, by simp, fun r => rfl⟩
  | case4 t =>
    intro n opens h
    cases h
    exact ⟨by omega, by simp, fun r => by simp [templateLength?]⟩
  | case5 c t h1 h2 hc ih =>
    intro n opens h
    obtain ⟨⟨m, o⟩, hm, he⟩ := Option.map_eq_some_iff.1 h
    cases he
    obtain ⟨hpos, hle, hr⟩ := ih hm
    refine ⟨by omega, by simp only [List.length_cons]; omega, fun r => ?_⟩
    obtain ⟨k, rfl⟩ : ∃ k, m = k + 1 := ⟨m - 1, by omega⟩
    obtain ⟨y, t, rfl⟩ : ∃ y t', t = y :: t' := List.exists_cons_of_length_pos (by omega)
    have hr := hr r
    simp only [List.take_succ_cons, List.cons_append] at hr ⊢
    rw [templateLength?.eq_4 _ _ (fun _ _ hb hy => by cases hy; exact h1 _ _ hb rfl)
      (fun _ hd hy => by cases hy; exact h2 _ hd rfl), if_neg hc, hr]
    rfl

theorem runLength_take (p : CodePoint → Bool) (t : Text) :
    (t.take (runLength p t)).length = runLength p t ∧ (t.take (runLength p t)).all p = true ∧
      Stops p (t.drop (runLength p t)) := by
  have hlen : (t.take (runLength p t)).length = runLength p t :=
    List.length_take_of_le (runLength_le p t)
  refine ⟨hlen, runLength_append.1 ?_⟩
  rw [List.take_append_drop, hlen]

theorem regexLength?_cons {inClass : Bool} (hc : c ≠ .char '\\') :
    regexLength? inClass (c :: r) =
      if c.isLineTerminator then none
      else if c = .char '[' then (regexLength? true r).map (· + 1)
      else if c = .char ']' then (regexLength? false r).map (· + 1)
      else if c = .char '/' && !inClass then some (1 + runLength isFlag r)
      else (regexLength? inClass r).map (· + 1) := by
  rw [regexLength?.eq_3 _ _ _ (fun _ _ h => (hc h).elim)]

theorem regexLength?_spec {inClass : Bool} {t : Text} :
    ∀ {n : Nat}, regexLength? inClass t = some n → 0 < n ∧ n ≤ t.length ∧ Stops isFlag (t.drop n) ∧
      ∀ r, Stops isFlag r → regexLength? inClass (t.take n ++ r) = some n := by
  fun_induction regexLength? inClass t with
  | case1 => intro n h; cases h
  | case2 inClass x t ih =>
    intro n h
    obtain ⟨m, hm, rfl⟩ := Option.map_eq_some_iff.1 h
    obtain ⟨hpos, hle, hs, hr⟩ := ih hm
    refine ⟨by omega, by simp only [List.length_cons]; omega, hs, fun r hs => ?_⟩
    simp [regexLength?, hr r hs]
  | case3 => intro n h; cases h
  | case4 inClass t h1 hl ih =>
    intro n h
    obtain ⟨m, hm, rfl⟩ := Option.map_eq_some_iff.1 h
    obtain ⟨hpos, hle, hs, hr⟩ := ih hm
    refine ⟨by omega, by simp only [List.length_cons]; omega, hs, fun r hs => ?_⟩
    rw [List.take_succ_cons, List.cons_append, regexLength?_cons (by decide), if_neg hl,
      if_pos rfl, hr r hs]
    rfl
  | case5 inClass t h1 hl h2 ih =>
    intro n h
    obtain ⟨m, hm, rfl⟩ := Option.map_eq_some_iff.1 h
    obtain ⟨hpos, hle, hs, hr⟩ := ih hm
    refine ⟨by omega, by simp only [List.length_cons]; omega, hs, fun r hs => ?_⟩
    rw [List.take_succ_cons, List.cons_append, regexLength?_cons (by decide), if_neg hl, if_neg h2,
      if_pos rfl, hr r hs]
    rfl
  | case6 inClass c t h1 hl h2 h3 hc =>
    intro n h
    cases h
    obtain ⟨hlen, hall, hstop⟩ := runLength_take isFlag t
    have hb : c ≠ .char '\\' := by
      rintro rfl
      cases hc
    rw [Nat.add_comm 1]
    have hle := runLength_le isFlag t
    refine ⟨by omega, by rw [List.length_cons]; omega, hstop, fun r hs => ?_⟩
    have hrun : runLength isFlag (t.take (runLength isFlag t) ++ r) = runLength isFlag t := by
      rw [runLength_append.2 ⟨hall, hs⟩, hlen]
    rw [List.take_succ_cons, List.cons_append, regexLength?_cons hb, if_neg hl, if_neg h2,
      if_neg h3, if_pos hc, hrun, Nat.add_comm 1]
  | case7 inClass c t h1 hl h2 h3 hc ih =>
    intro n h
    obtain ⟨m, hm, rfl⟩ := Option.map_eq_some_iff.1 h
    obtain ⟨hpos, hle, hs, hr⟩ := ih hm
    have hb : c ≠ .char '\\' := by
      rintro rfl
      obtain ⟨y, t, rfl⟩ := List.exists_cons_of_length_pos (show 0 < t.length by omega)
      exact h1 _ _ rfl rfl
    refine ⟨by omega, by simp only [List.length_cons]; omega, hs, fun r hs => ?_⟩
    rw [List.take_succ_cons, List.cons_append, regexLength?_cons hb, if_neg hl, if_neg h2,
      if_neg h3, if_neg hc, hr r hs]
    rfl

/-! ## numbers

A measure that stays within the front part of a text is the measure of that part; and no character
of a number is a boundary, so a number is measured alike with a boundary behind it. -/

/-- characters that may stand right behind a number and do not go on with it: those of the canonical
layout, CR, quotes, and the first letter of `import` -/
def boundaries : List CodePoint :=
  [.char ' ', .char '\n', .char '\r', .char ')', .char ']', .char '\x7d', .char ',', .char ';',
    .char ':', .char '?', .char '"', .char '\'', .char 'i']

/-- the text is empty, or begins with a boundary -/
def Bounded (t : Text) : Prop := ∀ c ∈ t.head?, c ∈ boundaries

theorem Bounded.stops (h : Bounded r) (hp : ∀ c ∈ boundaries, p c = false) : Stops p r :=
  fun c hc => hp c (h c hc)

/-- the text is empty, or begins with a boundary or a point, which goes on with nothing but whole
digits -/
def Parted (t : Text) : Prop := ∀ c ∈ t.head?, c ∈ .char '.' :: boundaries

theorem Bounded.parted (h : Bounded r) : Parted r := fun c hc => List.mem_cons_of_mem _ (h c hc)

theorem parted_point (r : Text) : Parted (.char '.' :: r) := by simp [Parted]

theorem Parted.stops (h : Parted r) (hp : ∀ c ∈ .char '.' :: boundaries, p c = false) : Stops p r :=
  fun c hc => hp c (h c hc)

theorem runLength_of_le (h : runLength p (a ++ r) ≤ a.length) :
    runLength p (a ++ r) = runLength p a := by
  induction a with
  | nil => simpa using h
  | cons c a ih =>
    simp only [List.cons_append, runLength_cons, List.length_cons] at h ⊢
    split
    · rw [if_pos ‹_›] at h
      rw [ih (by omega)]
    · rfl

theorem optionalLength_le (p : CodePoint → Bool) (t : Text) : optionalLength p t ≤ t.length := by
  cases t with
  | nil => exact Nat.le_refl 0
  | cons c r => simp only [optionalLength, List.length_cons]; split <;> omega

theorem optionalLength_of_le (h : optionalLength p (a ++ r) ≤ a.length) :
    optionalLength p (a ++ r) = optionalLength p a := by
  cases a with
  | nil => simpa [optionalLength] using h
  | cons c a => rfl

theorem optionalLength_append_of_stops (h : Stops p r) :
    optionalLength p (a ++ r) = optionalLength p a := by
  cases a with
  | cons c a => rfl
  | nil =>
    cases r with
    | nil => rfl
    | cons c r => simp [optionalLength, stops_cons.1 h]

theorem radixLength_singleton (c : CodePoint) : radixLength [c] = 0 := by
  unfold radixLength
  grind

theorem radixLength_cons_cons (c d : CodePoint) (r : Text) :
    radixLength (c :: d :: r) =
      if c = .char '0' then
        match radixPart? d with
        | some p => if runLength p r = 0 then 0 else 2 + runLength p r
        | none => 0
      else 0 := by
  split
  · subst c
    rfl
  · unfold radixLength
    grind

theorem mantissaLength_point (d : CodePoint) (r : Text) :
    mantissaLength (.char '.' :: d :: r) = if d.isDecimal then 2 + runLength isDecimalPart r
    else 0 := rfl

theorem mantissaLength_cons (hc : c ≠ .char '.') :
    mantissaLength (c :: r) =
      if c.isDecimal then
        let whole := runLength isDecimalPart r
        let point := optionalLength (· = .char '.') (r.drop whole)
        1 + whole + point + (if point = 0 then 0
          else runLength isDecimalPart (r.drop (whole + point)))
      else 0 :=
  mantissaLength.eq_2 _ _ (fun _ _ h => (hc h).elim)

theorem radixLength_of_le (h : radixLength (a ++ r) ≤ a.length) :
    radixLength (a ++ r) = radixLength a := by
  match a with
  | [] => simpa [radixLength] using h
  | [c] =>
    cases r with
    | nil => rfl
    | cons d r =>
      rw [radixLength_singleton]
      simp only [List.cons_append, List.nil_append, List.length_singleton, radixLength_cons_cons]
        at h ⊢
      grind
  | c :: d :: a =>
    simp only [List.cons_append, List.length_cons, radixLength_cons_cons] at h ⊢
    split
    · rw [if_pos ‹_›] at h
      cases hq : radixPart? d with
      | none => rfl
      | some q =>
        simp only [hq] at h ⊢
        have hrun : runLength q (a ++ r) ≤ a.length := by
          by_cases hz : runLength q (a ++ r) = 0
          · omega
          · have h : 2 + runLength q (a ++ r) ≤ a.length + 1 + 1 := by rwa [if_neg hz] at h
            omega
        rw [runLength_of_le hrun]
    · rfl

theorem mantissaLength_of_le (h : mantissaLength (a ++ r) ≤ a.length) :
    mantissaLength (a ++ r) = mantissaLength a := by
  cases a with
  | nil => simpa [mantissaLength] using h
  | cons c a =>
    by_cases hc : c = .char '.'
    · subst hc
      cases a with
      | nil =>
        cases r with
        | nil => rfl
        | cons d r =>
          simp only [List.cons_append, List.nil_append, List.length_singleton, mantissaLength_point]
            at h ⊢
          have hpoint : mantissaLength [.char '.'] = 0 := rfl
          rw [hpoint]
          split at h
          · omega
          · rw [if_neg ‹_›]
      | cons d a =>
        simp only [List.cons_append, List.length_cons, mantissaLength_point] at h ⊢
        split
        · rw [if_pos ‹_›] at h
          rw [runLength_of_le (by omega)]
        · rfl
    · simp only [List.cons_append, List.length_cons, mantissaLength_cons hc] at h ⊢
      split
      · rw [if_pos ‹_›] at h
        have hw : runLength isDecimalPart (a ++ r) = runLength isDecimalPart a :=
          runLength_of_le (by omega)
        have hle := runLength_le isDecimalPart a
        rw [hw, List.drop_append_of_le_length hle] at h ⊢
        have hp : optionalLength (· = .char '.') (a.drop (runLength isDecimalPart a) ++ r) =
            optionalLength (· = .char '.') (a.drop (runLength isDecimalPart a)) :=
          optionalLength_of_le (by rw [List.length_drop]; omega)
        rw [hp] at h ⊢
        have hople := optionalLength_le (· = .char '.') (a.drop (runLength isDecimalPart a))
        rw [List.length_drop] at hople
        rw [List.drop_append_of_le_length (by omega)] at h ⊢
        split
        · rfl
        · rw [if_neg ‹_›] at h
          rw [runLength_of_le (by rw [List.length_drop]; omega)]
      · rfl

/-- one digit, and more parts of a number behind it; zero if the text begins with no digit -/
def digitsLength : Text → Nat
  | c :: r => if c.isDecimal then 1 + runLength isDecimalPart r else 0
  | [] => 0

theorem digitsLength_of_le (h : digitsLength (a ++ r) ≤ a.length) :
    digitsLength (a ++ r) = digitsLength a := by
  cases a with
  | nil => simpa [digitsLength] using h
  | cons c a =>
    simp only [List.cons_append, List.length_cons, digitsLength] at h ⊢
    split
    · rw [if_pos ‹_›] at h
      rw [runLength_of_le (by omega)]
    · rfl

def isSign (c : CodePoint) : Bool := c = .char '+' || c = .char '-'

theorem exponentLength_cons (c : CodePoint) (r : Text) :
    exponentLength (c :: r) =
      if c = .char 'e' || c = .char 'E' then
        if digitsLength (r.drop (optionalLength isSign r)) = 0 then 0
        else 1 + optionalLength isSign r + digitsLength (r.drop (optionalLength isSign r))
      else 0 := by
  unfold isSign
  simp only [exponentLength]
  split
  · cases r.drop (optionalLength (fun c => c = .char '+' || c = .char '-') r) with
    | nil => rfl
    | cons d q =>
      simp only [digitsLength]
      split
      · rw [if_neg (by omega)]
        omega
      · rfl
  · rfl

theorem exponentLength_of_le (h : exponentLength (a ++ r) ≤ a.length) :
    exponentLength (a ++ r) = exponentLength a := by
  cases a with
  | nil => simpa [exponentLength] using h
  | cons c a =>
    simp only [List.cons_append, List.length_cons, exponentLength_cons] at h ⊢
    split
    · rw [if_pos ‹_›] at h
      cases a with
      | nil =>
        simp only [List.nil_append, List.length_nil] at h ⊢
        rw [if_pos (by split at h <;> omega)]
        rfl
      | cons d a =>
        have hs : optionalLength isSign (d :: a ++ r) = optionalLength isSign (d :: a) := rfl
        have hle : optionalLength isSign (d :: a) ≤ (d :: a).length := optionalLength_le _ _
        rw [hs, List.drop_append_of_le_length hle] at h ⊢
        rw [digitsLength_of_le (by rw [List.length_drop]; split at h <;> omega)]
    · rfl

theorem radixLength_le (t : Text) : radixLength t ≤ t.length := by
  match t with
  | [] => exact Nat.le_refl 0
  | [c] => rw [radixLength_singleton]; omega
  | c :: d :: r =>
    rw [radixLength_cons_cons]
    split
    · cases radixPart? d with
      | none => simp
      | some q =>
        have := runLength_le q r
        simp only [List.length_cons]
        split <;> omega
    · simp

theorem mantissaLength_le (t : Text) : mantissaLength t ≤ t.length := by
  cases t with
  | nil => exact Nat.le_refl 0
  | cons c r =>
    by_cases hc : c = .char '.'
    · subst hc
      cases r with
      | nil => exact Nat.zero_le 1
      | cons d r =>
        have := runLength_le isDecimalPart r
        rw [mantissaLength_point]
        simp only [List.length_cons]
        split <;> omega
    · rw [mantissaLength_cons hc]
      have hw := runLength_le isDecimalPart r
      have hp := optionalLength_le (· = .char '.') (r.drop (runLength isDecimalPart r))
      rw [List.length_drop] at hp
      simp only [List.length_cons]
      split
      · split
        · omega
        · have hf := runLength_le isDecimalPart
            (r.drop (runLength isDecimalPart r + optionalLength (· = .char '.')
              (r.drop (runLength isDecimalPart r))))
          rw [List.length_drop] at hf
          omega
      · omega

theorem digitsLength_le (t : Text) : digitsLength t ≤ t.length := by
  cases t with
  | nil => exact Nat.le_refl 0
  | cons c r =>
    have := runLength_le isDecimalPart r
    simp only [digitsLength, List.length_cons]
    split <;> omega

theorem exponentLength_le (t : Text) : exponentLength t ≤ t.length := by
  cases t with
  | nil => exact Nat.le_refl 0
  | cons c r =>
    have hs := optionalLength_le isSign r
    have hd := digitsLength_le (r.drop (optionalLength isSign r))
    rw [List.length_drop] at hd
    rw [exponentLength_cons]
    simp only [List.length_cons]
    split
    · split <;> omega
    · omega

/-- a number without the suffix of big integers -/
def unsuffixedLength (t : Text) : Nat :=
  if radixLength t = 0 then mantissaLength t + exponentLength (t.drop (mantissaLength t))
  else radixLength t

theorem numberLength_eq (t : Text) :
    numberLength t =
      if unsuffixedLength t = 0 then 0
      else unsuffixedLength t + optionalLength (· = .char 'n') (t.drop (unsuffixedLength t)) := rfl

theorem unsuffixedLength_le (t : Text) : unsuffixedLength t ≤ t.length := by
  have he := exponentLength_le (t.drop (mantissaLength t))
  rw [List.length_drop] at he
  have hm := mantissaLength_le t
  have hx := radixLength_le t
  unfold unsuffixedLength
  split <;> omega

theorem numberLength_le (t : Text) : numberLength t ≤ t.length := by
  have hu := unsuffixedLength_le t
  have hs := optionalLength_le (· = .char 'n') (t.drop (unsuffixedLength t))
  rw [List.length_drop] at hs
  rw [numberLength_eq]
  split <;> omega

theorem unsuffixedLength_of_le (h : unsuffixedLength (a ++ r) ≤ a.length) :
    unsuffixedLength (a ++ r) = unsuffixedLength a := by
  simp only [unsuffixedLength] at h ⊢
  by_cases hr : radixLength (a ++ r) = 0
  · rw [if_pos hr] at h ⊢
    have hra : radixLength a = 0 := by rw [← radixLength_of_le (by rw [hr]; omega), hr]
    rw [if_pos hra]
    have hm : mantissaLength (a ++ r) = mantissaLength a := mantissaLength_of_le (by omega)
    have hmle : mantissaLength a ≤ a.length := mantissaLength_le a
    rw [hm, List.drop_append_of_le_length hmle] at h ⊢
    rw [exponentLength_of_le (by rw [List.length_drop]; omega)]
  · rw [if_neg hr] at h ⊢
    have hra : radixLength (a ++ r) = radixLength a := radixLength_of_le h
    rw [hra] at hr ⊢
    rw [if_neg hr]

theorem numberLength_of_le (h : numberLength (a ++ r) ≤ a.length) :
    numberLength (a ++ r) = numberLength a := by
  rw [numberLength_eq] at h
  have hu : unsuffixedLength (a ++ r) = unsuffixedLength a :=
    unsuffixedLength_of_le (by split at h <;> omega)
  have hle := unsuffixedLength_le a
  rw [hu, List.drop_append_of_le_length hle] at h
  rw [numberLength_eq, numberLength_eq, hu, List.drop_append_of_le_length hle]
  split
  · rfl
  · rw [if_neg ‹_›] at h
    rw [optionalLength_of_le (by rw [List.length_drop]; omega)]

theorem stops_radixPart {q : CodePoint → Bool} (hr : Parted r) (hq : radixPart? c = some q) :
    Stops q r := by
  have hq : q = isHexPart ∨ q = isOctalPart ∨ q = isBinaryPart := by
    unfold radixPart? at hq
    grind
  rcases hq with rfl | rfl | rfl <;> exact hr.stops (by decide)

theorem radixLength_append_of_parted (hr : Parted r) : radixLength (a ++ r) = radixLength a := by
  match a with
  | [] =>
    match r with
    | [] => rfl
    | [c] => exact radixLength_singleton c
    | c :: d :: r =>
      have hc : c ∈ .char '.' :: boundaries := hr c rfl
      rw [List.nil_append, radixLength_cons_cons,
        if_neg (by rintro rfl; exact absurd hc (by decide))]
      rfl
  | [c] =>
    match r with
    | [] => rfl
    | d :: r =>
      have hd : radixPart? d = none := by
        have : ∀ d ∈ .char '.' :: boundaries, radixPart? d = none := by decide
        exact this d (hr d rfl)
      rw [List.cons_append, List.nil_append, radixLength_cons_cons, hd, radixLength_singleton]
      simp
  | c :: d :: a =>
    simp only [List.cons_append, radixLength_cons_cons]
    split
    · cases hq : radixPart? d with
      | none => rfl
      | some q => simp only [runLength_append_of_stops (stops_radixPart hr hq)]
    · rfl

theorem mantissaLength_append_of_bounded (hr : Bounded r) :
    mantissaLength (a ++ r) = mantissaLength a := by
  have hdigits : Stops isDecimalPart r := hr.stops (by decide)
  have hpoint : Stops (· = .char '.') r := hr.stops (by decide)
  have hdecimal : Stops CodePoint.isDecimal r := hr.stops (by decide)
  cases a with
  | nil =>
    cases r with
    | nil => rfl
    | cons c r =>
      rw [List.nil_append, mantissaLength_cons (by rintro rfl; exact absurd (hr _ rfl) (by decide)),
        if_neg (by rw [stops_cons.1 hdecimal]; decide)]
      rfl
  | cons c a =>
    by_cases hc : c = .char '.'
    · subst hc
      cases a with
      | nil =>
        cases r with
        | nil => rfl
        | cons d r =>
          rw [List.cons_append, List.nil_append, mantissaLength_point,
            if_neg (by rw [stops_cons.1 hdecimal]; decide)]
          rfl
      | cons d a =>
        simp only [List.cons_append, mantissaLength_point, runLength_append_of_stops hdigits]
    · have hw := runLength_le isDecimalPart a
      have hp := optionalLength_le (· = .char '.') (a.drop (runLength isDecimalPart a))
      rw [List.length_drop] at hp
      simp only [List.cons_append, mantissaLength_cons hc, runLength_append_of_stops hdigits,
        List.drop_append_of_le_length hw, optionalLength_append_of_stops hpoint]
      rw [List.drop_append_of_le_length (by omega), runLength_append_of_stops hdigits]

theorem digitsLength_append_of_parted (hr : Parted r) : digitsLength (a ++ r) = digitsLength a := by
  have hdigits : Stops isDecimalPart r := hr.stops (by decide)
  have hdecimal : Stops CodePoint.isDecimal r := hr.stops (by decide)
  cases a with
  | nil =>
    cases r with
    | nil => rfl
    | cons c r => simp [digitsLength, stops_cons.1 hdecimal]
  | cons c a => simp only [List.cons_append, digitsLength, runLength_append_of_stops hdigits]

theorem exponentLength_append_of_parted (hr : Parted r) :
    exponentLength (a ++ r) = exponentLength a := by
  cases a with
  | nil =>
    cases r with
    | nil => rfl
    | cons c r =>
      have hc : ∀ c ∈ .char '.' :: boundaries, (c = .char 'e' || c = .char 'E') = false := by decide
      rw [List.nil_append, exponentLength_cons, if_neg (by rw [hc c (hr c rfl)]; decide)]
      rfl
  | cons c a =>
    have hs : optionalLength isSign (a ++ r) = optionalLength isSign a :=
      optionalLength_append_of_stops (hr.stops (by decide))
    simp only [List.cons_append, exponentLength_cons, hs,
      List.drop_append_of_le_length (optionalLength_le isSign a), digitsLength_append_of_parted hr]

theorem unsuffixedLength_append_of_bounded (hr : Bounded r) :
    unsuffixedLength (a ++ r) = unsuffixedLength a := by
  simp only [unsuffixedLength, radixLength_append_of_parted hr.parted,
    mantissaLength_append_of_bounded hr, List.drop_append_of_le_length (mantissaLength_le a),
    exponentLength_append_of_parted hr.parted]

theorem numberLength_append_of_bounded (hr : Bounded r) :
    numberLength (a ++ r) = numberLength a := by
  have hsuffix : Stops (· = .char 'n') r := hr.stops (by decide)
  simp only [numberLength_eq, unsuffixedLength_append_of_bounded hr,
    List.drop_append_of_le_length (unsuffixedLength_le a), optionalLength_append_of_stops hsuffix]

/-- whole digits that stop before a point stop there whatever comes behind it -/
theorem mantissaLength_append_point (ha : a ≠ [])
    (h : mantissaLength (a ++ .char '.' :: r) ≤ a.length) (r' : Text) :
    mantissaLength (a ++ .char '.' :: r') = mantissaLength a := by
  have hdigits : ∀ r, Stops isDecimalPart (.char '.' :: r) :=
    fun r => (parted_point r).stops (by decide)
  obtain ⟨c, a, rfl⟩ := List.exists_cons_of_ne_nil ha
  by_cases hc : c = .char '.'
  · subst hc
    cases a with
    | nil => rfl
    | cons d a =>
      simp only [List.cons_append, mantissaLength_point, runLength_append_of_stops (hdigits r')]
  · simp only [List.cons_append, List.length_cons, mantissaLength_cons hc,
      runLength_append_of_stops (hdigits _)] at h ⊢
    split
    · rw [if_pos ‹_›] at h
      have hw := runLength_le isDecimalPart a
      rw [List.drop_append_of_le_length hw] at h ⊢
      cases hrest : a.drop (runLength isDecimalPart a) with
      | nil =>
        -- the point would belong to the number
        rw [List.drop_eq_nil_iff] at hrest
        rw [List.drop_eq_nil_of_le hrest] at h
        simp only [List.nil_append, optionalLength] at h
        simp at h
        omega
      | cons e q =>
        have hlen := congrArg List.length hrest
        rw [List.length_drop, List.length_cons] at hlen
        have hpoint :
            optionalLength (· = .char '.') (e :: q ++ .char '.' :: r') =
              optionalLength (· = .char '.') (e :: q) := rfl
        have hle : optionalLength (· = .char '.') (e :: q) ≤ 1 := by
          simp only [optionalLength]; split <;> omega
        rw [hpoint, List.drop_append_of_le_length (by omega),
          runLength_append_of_stops (hdigits r')]
    · rfl

/-- a number that ends before a point ends there whatever comes behind the point -/
theorem numberLength_append_point (ha : a ≠ []) (h : numberLength (a ++ .char '.' :: r) ≤ a.length)
    (r' : Text) : numberLength (a ++ .char '.' :: r') = numberLength a := by
  have hsuffix : Stops (· = .char 'n') (.char '.' :: r') := by simp
  have hradix : ∀ r, radixLength (a ++ .char '.' :: r) = radixLength a := fun r =>
    radixLength_append_of_parted (parted_point r)
  have hle : unsuffixedLength (a ++ .char '.' :: r) ≤ a.length := by
    rw [numberLength_eq] at h
    split at h <;> omega
  have hunsuffixed : unsuffixedLength (a ++ .char '.' :: r') = unsuffixedLength a := by
    simp only [unsuffixedLength, hradix] at hle ⊢
    by_cases hzero : radixLength a = 0
    · rw [if_pos hzero] at hle
      have hmantissa := mantissaLength_append_point ha (r := r) (by omega) r'
      rw [if_pos hzero, if_pos hzero, hmantissa,
        List.drop_append_of_le_length (mantissaLength_le a),
        exponentLength_append_of_parted (parted_point r')]
    · rw [if_neg hzero, if_neg hzero]
  simp only [numberLength_eq, hunsuffixed, List.drop_append_of_le_length (unsuffixedLength_le a),
    optionalLength_append_of_stops hsuffix]

end Relocation.Lexical
