import Relocation.Literal

/-!
# UTF-16 code units

`halves` writes a text as its UTF-16 code units: a character beyond U+FFFF becomes two surrogates.
Two texts that agree there are the same string to a program that counts in units.  Joining surrogate
pairs does not change the units (`halves_of_joinPairs?`), and what splits, joins and measures texts
at characters up to U+FFFF that are no surrogates treats a character and its halves alike.
-/

namespace Relocation

namespace CodePoint

theorem value_lt (c : CodePoint) : c.value < 0x110000 := by
  cases c with
  | char c =>
    have h := c.valid
    simp only [value, Char.toNat, UInt32.isValidChar, Nat.isValidChar] at *
    omega
  | surrogate n => simp only [value]; omega

/-- at most U+FFFF, and no surrogate -/
def isBasic (c : CodePoint) : Bool := c.isScalar && c.value < 0x10000

/-- the UTF-16 code units of a code point -/
def halves (c : CodePoint) : Text :=
  if h : c.value < 0x10000 then [c]
  else
    [.surrogate ⟨(c.value - 0x10000) / 0x400, by have := c.value_lt; omega⟩,
     .surrogate ⟨0x400 + (c.value - 0x10000) % 0x400, by omega⟩]

theorem halves_of_lt {c : CodePoint} (h : c.value < 0x10000) : c.halves = [c] := by
  rw [halves, dif_pos h]

theorem halves_eq (c : CodePoint) :
    c.halves = [c] ∨ c.isBasic = false ∧ ∃ m n, c.halves = [.surrogate m, .surrogate n] := by
  by_cases h : c.value < 0x10000
  · exact .inl (halves_of_lt h)
  · exact .inr ⟨by simp [isBasic, h], _, _, by rw [halves, dif_neg h]⟩

/-- a test that comes out the same for every surrogate and every character beyond U+FFFF -/
def Uniform (p : CodePoint → Bool) : Prop := ∃ b, ∀ c, c.isBasic = false → p c = b

theorem uniform_eq {d : CodePoint} (h : d.isBasic = true) : Uniform (· = d) :=
  ⟨false, fun c hc => by
    rw [decide_eq_false_iff_not]
    rintro rfl
    rw [hc] at h
    exact Bool.noConfusion h⟩

theorem Uniform.and {p q : CodePoint → Bool} (hp : Uniform p) (hq : Uniform q) : Uniform fun c =>
    p c && q c := by
  obtain ⟨a, ha⟩ := hp
  obtain ⟨b, hb⟩ := hq
  exact ⟨a && b, fun c hc => by simp only [ha c hc, hb c hc]⟩

theorem Uniform.or {p q : CodePoint → Bool} (hp : Uniform p) (hq : Uniform q) : Uniform fun c =>
    p c || q c := by
  obtain ⟨a, ha⟩ := hp
  obtain ⟨b, hb⟩ := hq
  exact ⟨a || b, fun c hc => by simp only [ha c hc, hb c hc]⟩

theorem Uniform.not {p : CodePoint → Bool} (hp : Uniform p) : Uniform fun c => !p c := by
  obtain ⟨a, ha⟩ := hp
  exact ⟨!a, fun c hc => by simp only [ha c hc]⟩

theorem value_of_isBasic_eq_false {c : CodePoint} (h : c.isBasic = false) :
    0xD800 ≤ c.value ∧ c.value < 0xE000 ∨ 0x10000 ≤ c.value := by
  cases c with
  | char c => right; simpa [isBasic, isScalar] using h
  | surrogate n => left; simp only [value]; omega

/-- a test of a range that leaves out the surrogates and what lies beyond U+FFFF -/
theorem uniform_range {a b : Nat} (h : b < 0xD800 ∨ 0xE000 ≤ a ∧ b < 0x10000) :
    Uniform fun c => a ≤ c.value && c.value ≤ b :=
  ⟨false, fun c hc => by
    have := value_of_isBasic_eq_false hc
    simp only [Bool.and_eq_false_iff, decide_eq_false_iff_not]
    omega⟩

theorem uniform_inRanges {ranges : List (Nat × Nat)}
    (h : ∀ r ∈ ranges, r.2 < 0xD800 ∨ 0xE000 ≤ r.1 ∧ r.2 < 0x10000) :
    Uniform (inRanges ranges) := by
  induction ranges with
  | nil => exact ⟨false, fun _ _ => rfl⟩
  | cons r ranges ih =>
    exact (uniform_range (h r (by simp))).or (ih fun r' hr => h r' (by simp [hr]))

end CodePoint

namespace Text

open CodePoint

/-- a text as its UTF-16 code units -/
def halves (t : Text) : Text := t.flatMap CodePoint.halves

@[simp] theorem halves_nil : halves [] = [] := rfl

theorem halves_append (s t : Text) : halves (s ++ t) = halves s ++ halves t := List.flatMap_append

/-- a code point stands for itself, or two surrogates stand for it -/
theorem halves_cons (c : CodePoint) (t : Text) :
    halves (c :: t) = c :: halves t ∨
      c.isBasic = false ∧ ∃ m n, halves (c :: t) = .surrogate m :: .surrogate n :: halves t := by
  rcases c.halves_eq with h | ⟨hc, m, n, h⟩
  · exact .inl (by rw [halves, List.flatMap_cons, h]; rfl)
  · exact .inr ⟨hc, m, n, by rw [halves, List.flatMap_cons, h]; rfl⟩

theorem halves_cons_basic {c : CodePoint} (h : c.isBasic = true) (t : Text) : halves (c :: t) = c ::
    halves t := by
  rcases halves_cons c t with hc | ⟨hc, -⟩
  · exact hc
  · rw [h] at hc; exact Bool.noConfusion hc

theorem halves_eq_self {t : Text} (h : t.all isBasic = true) : halves t = t := by
  induction t with
  | nil => rfl
  | cons c t ih =>
    rw [List.all_cons, Bool.and_eq_true] at h
    rw [halves_cons_basic h.1, ih h.2]

@[simp] theorem halves_eq_nil {t : Text} : halves t = [] ↔ t = [] := by
  cases t with
  | nil => simp
  | cons c t => rcases halves_cons c t with h | ⟨-, m, n, h⟩ <;> simp [h]

/-- a text of basic characters has only itself for its units -/
theorem halves_eq_iff {s t : Text} (hs : s.all isBasic = true) : halves t = s ↔ t = s := by
  refine ⟨fun h => ?_, fun h => by rw [h, halves_eq_self hs]⟩
  induction t generalizing s with
  | nil => simpa using h
  | cons c t ih =>
    rcases halves_cons c t with hc | ⟨-, m, n, hc⟩
    · rw [hc] at h
      subst h
      rw [List.all_cons, Bool.and_eq_true] at hs
      rw [← ih hs.2 rfl]
    · rw [hc] at h
      subst h
      exact Bool.noConfusion hs

/-! ## joined pairs -/

theorem halves_pairValue {h l : Fin 2048} (hh : (CodePoint.surrogate h).isHigh = true)
    (hl : (CodePoint.surrogate l).isLow = true) :
    (Literal.pairValue h l).halves = [.surrogate h, .surrogate l] := by
  simp only [isHigh, isLow, decide_eq_true_eq] at hh hl
  have hv : (0x10000 + h.val * 0x400 + (l.val - 0x400)).isValidChar := .inr (by omega)
  have hlt : 0x10000 + h.val * 0x400 + (l.val - 0x400) < 4294967296 := by omega
  have hval : (Literal.pairValue h l).value = 0x10000 + h.val * 0x400 + (l.val - 0x400) := by
    rw [Literal.pairValue, ofNat?, dif_pos hv]
    simp only [Option.getD_some, value, Char.toNat, Nat.toUInt32, UInt32.toNat_ofNat']
    exact Nat.mod_eq_of_lt hlt
  rw [CodePoint.halves, dif_neg (by omega)]
  simp only [hval, List.cons.injEq, surrogate.injEq, and_true, Fin.ext_iff]
  omega

theorem halves_of_joinPairs? {t t' : Text} (h : Literal.joinPairs? t = some t') :
    halves t' = halves t := by
  induction t using Literal.joinPairs?.induct generalizing t' with
  | case1 => obtain rfl := Option.some.inj h; rfl
  | case2 c r ih =>
    rw [Literal.joinPairs?] at h
    obtain ⟨r', hr, rfl⟩ := Option.map_eq_some_iff.1 h
    exact congrArg (CodePoint.halves (.char c) ++ ·) (ih hr)
  | case3 a b r hab ih =>
    rw [Literal.joinPairs?, if_pos hab] at h
    obtain ⟨r', hr, rfl⟩ := Option.map_eq_some_iff.1 h
    rw [Bool.and_eq_true] at hab
    show (Literal.pairValue a b).halves ++ halves r' = _
    rw [halves_pairValue hab.1 hab.2, ih hr]
    have ha : (CodePoint.surrogate a).halves = [.surrogate a] :=
      halves_of_lt (by simp only [value]; omega)
    have hb : (CodePoint.surrogate b).halves = [.surrogate b] :=
      halves_of_lt (by simp only [value]; omega)
    simp only [halves, List.flatMap_cons, ha, hb]
    rfl
  | case4 a b r hab => rw [Literal.joinPairs?, if_neg hab] at h; cases h
  | case5 a r hr =>
    rw [Literal.joinPairs?.eq_4 _ _ hr] at h
    cases h

/-! ## tests and cuts -/

theorem halves_ne_nil (c : CodePoint) : c.halves ≠ [] := by
  rcases c.halves_eq with h | ⟨-, m, n, h⟩ <;> simp [h]

theorem halves_cons_eq (c : CodePoint) (t : Text) : halves (c :: t) = c.halves ++ halves t := rfl

section Uniform

variable {p : CodePoint → Bool} (hp : Uniform p)
include hp

theorem of_mem_halves {c d : CodePoint} (hd : d ∈ c.halves) : p d = p c := by
  obtain ⟨b, hb⟩ := hp
  rcases c.halves_eq with h | ⟨hc, m, n, h⟩
  · rw [h, List.mem_singleton] at hd
    rw [hd]
  · rw [h] at hd
    rw [List.mem_cons, List.mem_singleton] at hd
    rcases hd with rfl | rfl <;> rw [hb c hc, hb _ rfl]

theorem all_halves (t : Text) : (halves t).all p = t.all p := by
  induction t with
  | nil => rfl
  | cons c t ih =>
    have hc : c.halves.all p = p c := by
      rw [Bool.eq_iff_iff, List.all_eq_true]
      constructor
      · intro h
        obtain ⟨d, hd⟩ := List.exists_mem_of_ne_nil _ (halves_ne_nil c)
        rw [← of_mem_halves hp hd]
        exact h d hd
      · exact fun h d hd => by rw [of_mem_halves hp hd, h]
    rw [halves_cons_eq, List.all_append, hc, ih, List.all_cons]

theorem any_halves (t : Text) : (halves t).any p = t.any p := by
  rw [List.any_eq_not_all_not, List.any_eq_not_all_not, all_halves hp.not]

theorem takeWhile_halves (t : Text) : (halves t).takeWhile p = halves (t.takeWhile p) := by
  induction t with
  | nil => rfl
  | cons c t ih =>
    cases hc : p c with
    | true =>
      rw [halves_cons_eq,
        List.takeWhile_append_of_pos fun d hd => by rw [of_mem_halves hp hd, hc], ih,
        List.takeWhile_cons_of_pos hc, halves_cons_eq]
    | false =>
      obtain ⟨d, l, hl⟩ := List.exists_cons_of_ne_nil (halves_ne_nil c)
      have hd : p d = false := by rw [of_mem_halves hp (c := c) (by simp [hl]), hc]
      rw [halves_cons_eq, hl, List.cons_append, List.takeWhile_cons_of_neg (by simp [hd]),
        List.takeWhile_cons_of_neg (by simp [hc])]
      rfl

theorem dropWhile_halves (t : Text) : (halves t).dropWhile p = halves (t.dropWhile p) := by
  induction t with
  | nil => rfl
  | cons c t ih =>
    cases hc : p c with
    | true =>
      rw [halves_cons_eq,
        List.dropWhile_append_of_pos fun d hd => by rw [of_mem_halves hp hd, hc], ih,
        List.dropWhile_cons_of_pos hc]
    | false =>
      obtain ⟨d, l, hl⟩ := List.exists_cons_of_ne_nil (halves_ne_nil c)
      have hd : p d = false := by rw [of_mem_halves hp (c := c) (by simp [hl]), hc]
      rw [List.dropWhile_cons_of_neg (by simp [hc]), halves_cons_eq, hl, List.cons_append,
        List.dropWhile_cons_of_neg (by simp [hd])]

theorem filter_halves (t : Text) : (halves t).filter p = halves (t.filter p) := by
  induction t with
  | nil => rfl
  | cons c t ih =>
    rw [halves_cons_eq, List.filter_append, ih]
    cases hc : p c with
    | true =>
      rw [List.filter_eq_self.2
        fun d hd => by rw [of_mem_halves hp hd, hc], List.filter_cons_of_pos hc, halves_cons_eq]
    | false =>
      rw [List.filter_eq_nil_iff.2
        fun d hd => by rw [of_mem_halves hp hd, hc]; exact Bool.false_ne_true,
        List.filter_cons_of_neg (by simp [hc])]
      rfl

end Uniform

section Separator

variable {x : CodePoint} (hx : x.isBasic = true)
include hx

theorem ne_of_mem_halves {c d : CodePoint} (hc : c ≠ x) (hd : d ∈ c.halves) : d ≠ x := by
  have h := of_mem_halves (uniform_eq hx) hd
  simpa [hc] using h

/-- a text begins with a basic character if its units do -/
theorem halves_eq_cons {t r' : Text} : halves t = x :: r' ↔ ∃ r, t = x :: r ∧ r' = halves r := by
  constructor
  · intro h
    cases t with
    | nil => simp at h
    | cons c r =>
      by_cases hc : c = x
      · subst hc
        rw [halves_cons_basic hx] at h
        exact ⟨r, rfl, (List.cons.inj h).2.symm⟩
      · obtain ⟨d, l, hl⟩ := List.exists_cons_of_ne_nil (halves_ne_nil c)
        have hd : d ≠ x := ne_of_mem_halves hx hc (by simp [hl])
        rw [halves_cons_eq, hl] at h
        exact absurd (List.cons.inj h).1 hd
  · rintro ⟨r, rfl, rfl⟩
    exact halves_cons_basic hx r

theorem contains_halves (t : Text) : (halves t).contains x = t.contains x := by
  have h := any_halves (uniform_eq hx) t
  rw [Bool.eq_iff_iff] at h ⊢
  simpa using h

theorem head?_halves (t : Text) : (halves t).head? = some x ↔ t.head? = some x := by
  rw [List.head?_eq_some_iff, List.head?_eq_some_iff]
  constructor
  · rintro ⟨r', h⟩
    obtain ⟨r, rfl, -⟩ := (halves_eq_cons hx).1 h
    exact ⟨r, rfl⟩
  · rintro ⟨r, rfl⟩
    exact ⟨halves r, halves_cons_basic hx r⟩

theorem cut_halves (t : Text) :
    cut x (halves t) = (halves (cut x t).1, (cut x t).2.map halves) := by
  have skip (l t : Text) (h : ∀ d ∈ l, d ≠ x) :
      cut x (l ++ t) = (l ++ (cut x t).1, (cut x t).2) := by
    induction l with
    | nil => rfl
    | cons d l ih => simp [cut, h d (by simp), ih fun d hd => h d (by simp [hd])]
  induction t with
  | nil => rfl
  | cons c t ih =>
    by_cases hc : c = x
    · subst hc
      simp [halves_cons_basic hx, cut]
    · rw [halves_cons_eq, skip _ _ fun d hd => ne_of_mem_halves hx hc hd, ih]
      simp [cut, hc, halves_cons_eq]

omit hx in
theorem splitOn_ne_nil (t : Text) : splitOn x t ≠ [] := by
  cases t with
  | nil => simp [splitOn]
  | cons c t =>
    rw [splitOn]
    split
    · simp
    · split <;> simp

theorem splitOn_halves (t : Text) : splitOn x (halves t) = (splitOn x t).map halves := by
  have skip (l t : Text) (h : ∀ d ∈ l, d ≠ x) :
      splitOn x (l ++ t) = (splitOn x t).modifyHead (l ++ ·) := by
    induction l with
    | nil =>
      obtain ⟨p, ps, hps⟩ := List.exists_cons_of_ne_nil (splitOn_ne_nil (x := x) t)
      simp [hps]
    | cons d l ih =>
      obtain ⟨p, ps, hps⟩ := List.exists_cons_of_ne_nil (splitOn_ne_nil (x := x) t)
      rw [List.cons_append, splitOn, ih fun d hd => h d (by simp [hd]), hps]
      simp [h d]
  induction t with
  | nil => rfl
  | cons c t ih =>
    obtain ⟨p, ps, hps⟩ := List.exists_cons_of_ne_nil (splitOn_ne_nil (x := x) t)
    by_cases hc : c = x
    · subst hc
      rw [halves_cons_basic hx, splitOn, ih, splitOn, hps]
      simp
    · rw [halves_cons_eq, skip _ _ fun d hd => ne_of_mem_halves hx hc hd, ih, splitOn, hps]
      simp [hc, halves_cons_eq]

theorem join_halves (l : List Text) : join [x] (l.map halves) = halves (join [x] l) := by
  induction l using join.induct with
  | case1 => rfl
  | case2 => rfl
  | case3 p q r ih =>
    show halves p ++ [x] ++ join [x] ((q :: r).map halves) = halves (p ++ [x] ++ join [x] (q :: r))
    rw [ih, halves_append, halves_append, halves_eq_self (t := [x]) (by simp [hx])]

end Separator

end Text

end Relocation
