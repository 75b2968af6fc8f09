import Relocation.Proofs.Positions
import Relocation.Proofs.Settled
import Relocation.Proofs.Scalar
import Mathlib.Data.List.TakeWhile
import Mathlib.Data.Nat.Digits.Lemmas

/-!
# What string literals denote

The escapes of the language are listed apart from the function that reads them (`Escapes`).  A
literal is refused just where one of them is malformed, else its value has the units that its
characters and escapes denote.  The value joins the surrogate pairs among the units only when no
surrogate is left without a partner (`value_denotes`).
-/

namespace Relocation

/-! ## tokens of a text -/

theorem Lexeme.readable_of_mem_tokens {ctx : Token.Context} {ls : List Lexeme} {rest : Text}
    {p : Position} (h : Cuts ctx ls rest) : ∀ k ∈ tokens p ls, Token.Readable k.kind k.text := by
  induction ls generalizing ctx p with
  | nil => intro k hk; cases hk
  | cons l ls ih =>
    obtain ⟨⟨c, t, ht, hread⟩, hls⟩ := h
    intro k hk
    rw [tokens] at hk
    cases hl : l.front with
    | gap =>
      rw [hl] at hk
      exact ih hls k hk
    | token kind =>
      rw [hl] at hk hread
      rcases List.mem_cons.1 hk with rfl | hk
      · exact ⟨ctx, c, t, _, ht, hread⟩
      · exact ih hls k hk

/-- what is a token of a text can be read as one -/
theorem TokenStream.readable_of_mem {source : Text} {k : Token} (h : k ∈ (ofText source).tokens) :
    Token.Readable k.kind k.text := by
  obtain ⟨ls, rest, stopped, -, hcuts, htokens, -⟩ := exists_lexemes source
  rw [htokens] at h
  exact Lexeme.readable_of_mem_tokens hcuts k h

namespace Literal

open Lexical
open Token (Readable)
open Item (readable_of_front)

/-! ## the escapes of the language -/

/-- the number that digits write, the most significant one first -/
def number (base : Nat) (digits : Text) : Nat :=
  Nat.ofDigits base (digits.reverse.map CodePoint.hexValue)

/-- one hexadecimal digit or more -/
def IsHex (digits : Text) : Prop := digits ≠ [] ∧ ∀ c ∈ digits, c.isHex = true

/-- the letters that stand for control characters -/
def controls : List (Char × Char) :=
  [('b', '\x08'), ('f', '\x0c'), ('n', '\n'), ('r', '\r'), ('t', '\t'), ('v', '\x0b')]

/-- a character that stands for itself behind a backslash -/
def IsUnknown (c : CodePoint) : Prop :=
  c.isLineTerminator = false ∧ c.isOctal = false ∧ c ≠ .char 'x' ∧ c ≠ .char 'u' ∧
    ∀ k ∈ controls, c ≠ .char k.1

/-- how many octal digits may follow an octal digit -/
def octalRoom (c : CodePoint) : Nat := if c.value ≤ 0x33 then 2 else 1

/-- `Escapes e r t`: behind a backslash and before `r`, the text `e` is an escape for `t` -/
inductive Escapes : Text → Text → Text → Prop
  | crlf {r : Text} : Escapes [.char '\r', .char '\n'] r []
  | terminator {c : CodePoint} {r : Text} (hc : c.isLineTerminator = true)
    (hr : c = .char '\r' → r.head? ≠ some (.char '\n')) : Escapes [c] r []
  | hex {digits r : Text} {d : CodePoint} (h : IsHex digits) (hn : digits.length = 2)
    (hd : d.value = number 16 digits) : Escapes (.char 'x' :: digits) r [d]
  | unit {digits r : Text} {d : CodePoint} (h : IsHex digits) (hn : digits.length = 4)
    (hd : d.value = number 16 digits) : Escapes (.char 'u' :: digits) r [d]
  | braced {digits r : Text} {d : CodePoint} (h : IsHex digits) (hd : d.value = number 16 digits) :
    Escapes (.char 'u' :: .char '\x7b' :: (digits ++ [.char '\x7d'])) r [d]
  | octal {c d : CodePoint} {digits r : Text} (hc : ∀ b ∈ c :: digits, b.isOctal = true)
    (hn : digits.length ≤ octalRoom c) (hr : digits.length < octalRoom c →
      ∀ b ∈ r.head?, b.isOctal = false)
    (hd : d.value = number 8 (c :: digits)) : Escapes (c :: digits) r [d]
  | control {k : Char × Char} {r : Text} (h : k ∈ controls) : Escapes [.char k.1] r [.char k.2]
  | unknown {c : CodePoint} {r : Text} (h : IsUnknown c) : Escapes [c] r [c]

/-- what the characters and escapes of a body stand for, each read once from left to right -/
inductive Denotes : Text → Text → Prop
  | nil : Denotes [] []
  | char {c : CodePoint} {r t : Text} (hc : c ≠ .char '\\') (h : Denotes r t) :
    Denotes (c :: r) (c :: t)
  | escape {e r d t : Text} (he : Escapes e r d) (h : Denotes r t) :
    Denotes (.char '\\' :: (e ++ r)) (d ++ t)

/-- why a body denotes nothing: the first of its escapes that is none of the language -/
inductive Faulty : Text → EscapeFault → Prop
  | hex {r : Text} (h : ∀ digits r', r = digits ++ r' → IsHex digits → digits.length ≠ 2) :
    Faulty (.char '\\' :: .char 'x' :: r) .malformed
  | unit {r : Text} (hunit : ∀ digits r', r = digits ++ r' → IsHex digits → digits.length ≠ 4)
    (hbraced : ∀ digits r', r = .char '\x7b' :: (digits ++ .char '\x7d' :: r') → ¬ IsHex digits) :
    Faulty (.char '\\' :: .char 'u' :: r) .malformed
  | range {digits r : Text} (h : IsHex digits) (hn : 0x10FFFF < number 16 digits) :
    Faulty (.char '\\' :: .char 'u' :: .char '\x7b' :: (digits ++ .char '\x7d' :: r)) .outOfRange
  | char {c : CodePoint} {r : Text} {f : EscapeFault} (hc : c ≠ .char '\\') (h : Faulty r f) :
    Faulty (c :: r) f
  | escape {e r d : Text} {f : EscapeFault} (he : Escapes e r d) (h : Faulty r f) :
    Faulty (.char '\\' :: (e ++ r)) f

/-- how a fault of a literal is reported -/
def refusal (literal : Text) : EscapeFault → Failure
  | .outOfRange => .source ⟨.codePointOutOfRange literal, none⟩
  | .malformed => .source ⟨.malformedEscape literal, none⟩

/-- the text of UTF-16 code units: a first half right before a second half is joined with it -/
def joined : Text → Text
  | .surrogate h :: .surrogate l :: r =>
    if (CodePoint.surrogate h).isHigh && (CodePoint.surrogate l).isLow then
      pairValue h l :: joined r
    else .surrogate h :: joined (.surrogate l :: r)
  | c :: r => c :: joined r
  | [] => []

variable {r e d t body literal digits : Text} {c quote : CodePoint} {n : Nat} {f : EscapeFault}

/-! ## numbers -/

theorem number_eq (base : Nat) (digits : Text) :
    number base digits = digits.foldl (fun n c => n * base + c.hexValue) 0 := by
  rw [number, List.map_reverse, Nat.ofDigits_eq_foldr, List.foldr_reverse, List.foldl_map]
  simp [Nat.mul_comm, Nat.add_comm]

theorem hexNumber_eq (digits : Text) : hexNumber digits = number 16 digits :=
  (number_eq 16 digits).symm

theorem hexValue_of_isOctal (h : c.isOctal = true) : c.hexValue = c.value - 0x30 ∧
    c.hexValue < 8 := by
  simp only [CodePoint.isOctal, Bool.and_eq_true, decide_eq_true_eq] at h
  rw [CodePoint.hexValue, if_pos (by omega)]
  omega

theorem octalNumber_eq (h : ∀ c ∈ digits, c.isOctal = true) :
    octalNumber digits = number 8 digits := by
  rw [number_eq, octalNumber]
  refine List.foldl_ext _ _ _ fun n c hc => ?_
  rw [(hexValue_of_isOctal (h c hc)).1]

theorem hexValue_lt (h : c.isHex = true) : c.hexValue < 16 := by
  simp only [CodePoint.isHex, Bool.or_eq_true, Bool.and_eq_true, decide_eq_true_eq] at h
  unfold CodePoint.hexValue
  split_ifs <;> omega

theorem number_lt {base : Nat} (hbase : 1 < base) (h : ∀ c ∈ digits, c.hexValue < base) :
    number base digits < base ^ digits.length := by
  have :=
    Nat.ofDigits_lt_base_pow_length (l := digits.reverse.map CodePoint.hexValue) hbase
      (by simpa using h)
  simpa [number] using this

theorem ofNat?_value (c : CodePoint) : CodePoint.ofNat? c.value = some c := by
  cases c with
  | char c =>
    have hc : c.toNat.isValidChar := c.valid
    rw [CodePoint.value, CodePoint.ofNat?, dif_pos hc]
    have hv : UInt32.ofNat c.toNat = c.val := UInt32.ofNat_toNat
    simp [hv]
  | surrogate n =>
    have hn : ¬ (0xD800 + n.val).isValidChar := by simp only [Nat.isValidChar]; omega
    rw [CodePoint.value, CodePoint.ofNat?, dif_neg hn, dif_pos (by omega)]
    simp

theorem exists_value (h : n ≤ 0x10FFFF) : ∃ c : CodePoint, c.value = n := by
  by_cases hn : 0xD800 ≤ n ∧ n < 0xE000
  · exact ⟨.surrogate ⟨n - 0xD800, by omega⟩, by simp only [CodePoint.value]; omega⟩
  · have hv : n.isValidChar := by simp only [Nat.isValidChar]; omega
    exact ⟨.char (Char.ofNatAux n hv), rfl⟩

theorem codePoint_of_value (h : c.value = n) : codePoint n = .ok [c] := by
  rw [codePoint, ← h, ofNat?_value]

theorem codePoint_of_lt (h : 0x10FFFF < n) : codePoint n = .error .outOfRange := by
  have hv : ¬ n.isValidChar := by simp only [Nat.isValidChar]; omega
  rw [codePoint, CodePoint.ofNat?, dif_neg hv, dif_neg (by omega)]

/-! ## digits -/

theorem hexDigits?_append (h : ∀ c ∈ digits, c.isHex = true) (r : Text) :
    hexDigits? digits.length (digits ++ r) = some digits := by
  have hd : ((digits ++ r).take digits.length).takeWhile CodePoint.isHex = digits := by
    rw [List.take_left, List.takeWhile_eq_self_iff.2 h]
  rw [hexDigits?, hd, if_pos rfl]

theorem hexDigits?_eq_none
    (h : ∀ digits r', r = digits ++ r' → IsHex digits → digits.length ≠ n + 1) :
    hexDigits? (n + 1) r = none := by
  have hprefix : (r.take (n + 1)).takeWhile CodePoint.isHex <+: r :=
    (List.takeWhile_prefix _).trans (List.take_prefix _ _)
  obtain ⟨r', hr⟩ := hprefix
  refine if_neg fun hlength => h _ r' hr.symm ⟨?_, fun c hc => ?_⟩ hlength
  · exact List.ne_nil_of_length_eq_add_one hlength
  · exact List.all_eq_true.1 (List.all_takeWhile) c hc

theorem bracedDigits?_braced (h : IsHex digits) (r : Text) :
    bracedDigits? (.char '\x7b' :: (digits ++ .char '\x7d' :: r)) = some digits := by
  have hd : (digits ++ .char '\x7d' :: r).takeWhile CodePoint.isHex = digits := by
    rw [List.takeWhile_append_of_pos h.2, List.takeWhile_cons_of_neg (by decide), List.append_nil]
  rw [bracedDigits?, hd, List.drop_left, if_pos ⟨h.1, rfl⟩]

theorem bracedDigits?_eq_none
    (h : ∀ digits r', r = .char '\x7b' :: (digits ++ .char '\x7d' :: r') → ¬ IsHex digits) :
    bracedDigits? r = none := by
  unfold bracedDigits?
  split
  · rename_i r
    refine if_neg fun ⟨hne, hhead⟩ => ?_
    obtain ⟨r', hr'⟩ := List.head?_eq_some_iff.1 hhead
    refine h (r.takeWhile CodePoint.isHex) r' ?_ ⟨hne, List.all_eq_true.1 List.all_takeWhile⟩
    rw [← hr', List.prefix_iff_eq_append.1 (List.takeWhile_prefix _)]
  · rfl

theorem bracedDigits?_hex (h : IsHex digits) (r : Text) : bracedDigits? (digits ++ r) = none := by
  refine bracedDigits?_eq_none fun ds r' hds => ?_
  obtain ⟨c, l, rfl⟩ := List.exists_cons_of_ne_nil h.1
  obtain ⟨rfl, -⟩ := List.cons.inj hds
  exact absurd (h.2 _ List.mem_cons_self) (by decide)

theorem octalDigits_append (hc : ∀ b ∈ digits, b.isOctal = true) (hn : digits.length ≤ octalRoom c)
    (hr : digits.length < octalRoom c → ∀ b ∈ r.head?, b.isOctal = false) :
    octalDigits c (digits ++ r) = c :: digits := by
  have hroom : (if c.value < 0x34 then 2 else 1) = octalRoom c := by
    unfold octalRoom
    split_ifs <;> omega
  rw [octalDigits, hroom, List.take_append, List.take_of_length_le hn,
    List.takeWhile_append_of_pos hc]
  have hrest : (r.take (octalRoom c - digits.length)).takeWhile CodePoint.isOctal = [] := by
    cases r with
    | nil => simp
    | cons b r =>
      rcases hn.lt_or_eq with hlt | heq
      · rw [show octalRoom c - digits.length = (octalRoom c - digits.length - 1) + 1 by omega,
          List.take_succ_cons, List.takeWhile_cons_of_neg (by simp [hr hlt b rfl])]
      · simp [heq]
  rw [hrest, List.append_nil]

/-! ## one escape -/

theorem escape_cons (h : c = .char '\r' → r.head? ≠ some (.char '\n')) :
    escape (c :: r) =
      if c.isLineTerminator then .ok ([], 1)
      else if c = .char 'x' then
        match hexDigits? 2 r with
        | some digits => return (← codePoint (hexNumber digits), 3)
        | none => .error .malformed
      else if c = .char 'u' then
        match bracedDigits? r, hexDigits? 4 r with
        | some digits, _ => return (← codePoint (hexNumber digits), digits.length + 3)
        | none, some digits => return (← codePoint (hexNumber digits), 5)
        | none, none => .error .malformed
      else if c.isOctal then
        return (← codePoint (octalNumber (octalDigits c r)), (octalDigits c r).length)
      else .ok ([letterEscape c], 1) := by
  refine escape.eq_3 c r fun r' hc hr => h hc ?_
  rw [hr]
  rfl

theorem ne_of_isOctal (h : c.isOctal = true) :
    c.isLineTerminator = false ∧ c ≠ .char '\r' ∧ c ≠ .char 'x' ∧ c ≠ .char 'u' := by
  have hvalue : c.value < 0x38 := by
    simp only [CodePoint.isOctal, Bool.and_eq_true, decide_eq_true_eq] at h
    omega
  obtain ⟨n, hn, rfl⟩ := eq_char_of_value_lt hvalue (by decide)
  revert h
  interval_cases n <;> decide

theorem letterEscape_of_isUnknown (h : IsUnknown c) : letterEscape c = c := by
  have hne : ∀ k ∈ controls, c ≠ .char k.1 := h.2.2.2.2
  unfold letterEscape
  rw [if_neg (hne ('b', '\x08') (by decide)), if_neg (hne ('f', '\x0c') (by decide)),
    if_neg (hne ('n', '\n') (by decide)), if_neg (hne ('r', '\r') (by decide)),
    if_neg (hne ('t', '\t') (by decide)), if_neg (hne ('v', '\x0b') (by decide))]

/-- every escape of the language is read as what it stands for -/
theorem escape_of_escapes (h : Escapes e r d) : escape (e ++ r) = .ok (d, e.length) := by
  cases h with
  | crlf => rfl
  | terminator hc hr => rw [List.singleton_append, escape_cons hr, if_pos hc]; rfl
  | @hex digits r d h hn hd =>
    rw [List.cons_append, escape_cons (by simp), if_neg (by decide), if_pos rfl, ← hn,
      hexDigits?_append h.2]
    simp only [hexNumber_eq, codePoint_of_value hd, List.length_cons, hn]
    rfl
  | @unit digits r d h hn hd =>
    rw [List.cons_append, escape_cons (by simp), if_neg (by decide), if_neg (by decide), if_pos rfl,
      bracedDigits?_hex h, ← hn, hexDigits?_append h.2]
    simp only [hexNumber_eq, codePoint_of_value hd, List.length_cons, hn]
    rfl
  | @braced digits r d h hd =>
    rw [List.cons_append, List.cons_append, List.append_assoc, List.singleton_append,
      escape_cons (by simp), if_neg (by decide), if_neg (by decide), if_pos rfl,
      bracedDigits?_braced h]
    simp only [hexNumber_eq, codePoint_of_value hd, List.length_cons, List.length_append,
      List.length_nil]
    rfl
  | @octal c d digits r hc hn hr hd =>
    obtain ⟨hline, hcr, hx, hu⟩ := ne_of_isOctal (hc c List.mem_cons_self)
    rw [List.cons_append, escape_cons fun h => absurd h hcr, if_neg (by simp [hline]),
      if_neg hx, if_neg hu, if_pos (hc c List.mem_cons_self),
      octalDigits_append (fun b hb => hc b (List.mem_cons_of_mem c hb)) hn hr,
      octalNumber_eq hc, codePoint_of_value hd]
    rfl
  | @control k r h =>
    simp only [controls, List.mem_cons, List.not_mem_nil, or_false] at h
    rcases h with rfl | rfl | rfl | rfl | rfl | rfl <;> rfl
  | @unknown c r h =>
    have hcr : c ≠ .char '\r' := by
      rintro rfl
      exact absurd h.1 (by decide)
    rw [List.singleton_append, escape_cons fun h => absurd h hcr, if_neg (by simp [h.1]),
      if_neg h.2.2.1, if_neg h.2.2.2.1, if_neg (by simp [h.2.1]), letterEscape_of_isUnknown h]
    rfl

theorem units_of_denotes (h : Denotes body t) : units 0 body = .ok t := by
  induction h with
  | nil => rfl
  | char hc _ ih => rw [units, if_neg hc, ih]; rfl
  | @escape e r d t he _ ih =>
    rw [units, if_pos rfl, escape_of_escapes he]
    show (do return d ++ (← units e.length (e ++ r))) = _
    rw [units_append, ih]
    rfl

theorem units_of_faulty (h : Faulty body f) : units 0 body = .error f := by
  induction h with
  | hex h =>
    rw [units, if_pos rfl, escape_cons (by simp), if_neg (by decide), if_pos rfl,
      hexDigits?_eq_none h]; rfl
  | unit hunit hbraced =>
    rw [units, if_pos rfl, escape_cons (by simp), if_neg (by decide), if_neg (by decide),
      if_pos rfl, bracedDigits?_eq_none hbraced, hexDigits?_eq_none hunit]
    rfl
  | range h hn =>
    rw [units, if_pos rfl, escape_cons (by simp), if_neg (by decide), if_neg (by decide),
      if_pos rfl, bracedDigits?_braced h]
    simp only [hexNumber_eq, codePoint_of_lt hn]
    rfl
  | char hc _ ih => rw [units, if_neg hc, ih]; rfl
  | @escape e r d f he _ ih =>
    rw [units, if_pos rfl, escape_of_escapes he]
    show (do return d ++ (← units e.length (e ++ r))) = _
    rw [units_append, ih]
    rfl

/-! ## every escape is one of the language, or faulty -/

/-- the longest run of a class in front that has at most `n` characters -/
theorem exists_run (p : CodePoint → Bool) (n : Nat) (r : Text) : ∃ run r', r = run ++ r' ∧
    (∀ b ∈ run, p b = true) ∧ run.length ≤ n ∧ (run.length < n → ∀ b ∈ r'.head?, p b = false) := by
  induction n generalizing r with
  | zero => exact ⟨[], r, rfl, by simp, le_rfl, fun h => absurd h (by simp)⟩
  | succ n ih =>
    cases r with
    | nil => exact ⟨[], [], rfl, by simp, by simp, by simp⟩
    | cons b r =>
      cases hb : p b with
      | false => exact ⟨[], b :: r, rfl, by simp, by simp, by simp [hb]⟩
      | true =>
        obtain ⟨run, r', rfl, hrun, hle, hmax⟩ := ih r
        refine ⟨b :: run, r', rfl, List.forall_mem_cons.2 ⟨hb, hrun⟩, Nat.succ_le_succ hle,
          fun h => ?_⟩
        exact hmax (Nat.lt_of_succ_lt_succ h)

theorem exists_of_isOctal (hc : c.isOctal = true) (r : Text) : ∃ e r' d, c :: r = e ++ r' ∧
    Escapes e r' d := by
  obtain ⟨digits, r', rfl, hdigits, hle, hmax⟩ := exists_run CodePoint.isOctal (octalRoom c) r
  have hoctal : ∀ b ∈ c :: digits, b.isOctal = true := List.forall_mem_cons.2 ⟨hc, hdigits⟩
  have hnumber : number 8 (c :: digits) < 8 ^ 3 := by
    have hlength : (c :: digits).length ≤ 3 := by
      have : octalRoom c ≤ 2 := by unfold octalRoom; split_ifs <;> omega
      rw [List.length_cons]
      omega
    refine (number_lt (by omega) fun b hb => (hexValue_of_isOctal (hoctal b hb)).2).trans_le ?_
    exact Nat.pow_le_pow_right (by omega) hlength
  obtain ⟨d, hd⟩ := exists_value (n := number 8 (c :: digits)) (by omega)
  exact ⟨c :: digits, r', [d], rfl, .octal hoctal hle hmax hd⟩

/-- digits stand for a code point if there are not too many of them -/
theorem exists_value_of_isHex (h : IsHex digits) (hn : digits.length ≤ 4) : ∃ d : CodePoint,
    d.value = number 16 digits := by
  have hlt := number_lt (by omega) fun b hb => hexValue_lt (h.2 b hb)
  have hle : 16 ^ digits.length ≤ 16 ^ 4 := Nat.pow_le_pow_right (by omega) hn
  exact exists_value (by omega)

theorem escapes_or_faulty (c : CodePoint) (r : Text) :
    (∃ e r' d, c :: r = e ++ r' ∧ Escapes e r' d) ∨ ∃ f, Faulty (.char '\\' :: c :: r) f := by
  by_cases hcrlf : c = .char '\r' ∧ r.head? = some (.char '\n')
  · obtain ⟨rfl, hhead⟩ := hcrlf
    obtain ⟨r', rfl⟩ := List.head?_eq_some_iff.1 hhead
    exact .inl ⟨_, r', [], rfl, .crlf⟩
  by_cases hline : c.isLineTerminator = true
  · exact .inl ⟨[c], r, [], rfl, .terminator hline fun hc hr => hcrlf ⟨hc, hr⟩⟩
  by_cases hx : c = .char 'x'
  · subst hx
    by_cases hdigits : ∃ digits r', r = digits ++ r' ∧ IsHex digits ∧ digits.length = 2
    · obtain ⟨digits, r', rfl, hhex, hn⟩ := hdigits
      obtain ⟨d, hd⟩ := exists_value_of_isHex hhex (by omega)
      exact .inl ⟨_, r', [d], rfl, .hex hhex hn hd⟩
    · exact .inr ⟨_, .hex fun digits r' hr hhex hn => hdigits ⟨digits, r', hr, hhex, hn⟩⟩
  by_cases hu : c = .char 'u'
  · subst hu
    by_cases hbraced : ∃ digits r', r = .char '\x7b' :: (digits ++ .char '\x7d' :: r') ∧
      IsHex digits
    · obtain ⟨digits, r', rfl, hhex⟩ := hbraced
      by_cases hrange : 0x10FFFF < number 16 digits
      · exact .inr ⟨_, .range hhex hrange⟩
      · obtain ⟨d, hd⟩ := exists_value (Nat.le_of_not_lt hrange)
        exact .inl ⟨_, r', [d], by simp, .braced hhex hd⟩
    by_cases hdigits : ∃ digits r', r = digits ++ r' ∧ IsHex digits ∧ digits.length = 4
    · obtain ⟨digits, r', rfl, hhex, hn⟩ := hdigits
      obtain ⟨d, hd⟩ := exists_value_of_isHex hhex (by omega)
      exact .inl ⟨_, r', [d], rfl, .unit hhex hn hd⟩
    · exact .inr ⟨_, .unit (fun digits r' hr hhex hn => hdigits ⟨digits, r', hr, hhex, hn⟩)
        fun digits r' hr hhex => hbraced ⟨digits, r', hr, hhex⟩⟩
  by_cases hoctal : c.isOctal = true
  · exact .inl (exists_of_isOctal hoctal r)
  by_cases hcontrol : ∃ k ∈ controls, c = .char k.1
  · obtain ⟨k, hk, rfl⟩ := hcontrol
    exact .inl ⟨_, r, _, rfl, .control hk⟩
  · have hunknown : IsUnknown c :=
      ⟨by simpa using hline, by simpa using hoctal, hx, hu, fun k hk hc => hcontrol ⟨k, hk, hc⟩⟩
    exact .inl ⟨[c], r, [c], rfl, .unknown hunknown⟩

/-! ## bodies of literals -/

/-- a digit or a brace -/
def isInert (c : CodePoint) : Bool := c.isHex || c = .char '\x7b' || c = .char '\x7d'

theorem isHex_of_isOctal (h : c.isOctal = true) : c.isHex = true := by
  simp only [CodePoint.isOctal, CodePoint.isHex, Bool.or_eq_true, Bool.and_eq_true,
    decide_eq_true_eq] at h ⊢
  omega

/-- behind its first character an escape has digits and braces only, but for a line feed behind a
carriage return -/
theorem Escapes.inert (h : Escapes e r d) : e = [.char '\r', .char '\n'] ∨
    ∃ c tail, e = c :: tail ∧ (∀ b ∈ tail, isInert b = true) ∧
    (c = .char '\r' → (tail ++ r).head? ≠ some (.char '\n')) := by
  have hinert :
      ∀ {digits : Text}, (∀ b ∈ digits, b.isHex = true) → ∀ b ∈ digits, isInert b = true :=
    fun h b hb => by simp [isInert, h b hb]
  cases h with
  | crlf => exact .inl rfl
  | terminator hc hr => exact .inr ⟨_, [], rfl, by simp, hr⟩
  | hex h => exact .inr ⟨_, _, rfl, hinert h.2, by simp⟩
  | unit h => exact .inr ⟨_, _, rfl, hinert h.2, by simp⟩
  | braced h =>
    refine .inr ⟨_, _, rfl,
      List.forall_mem_cons.2 ⟨rfl, List.forall_mem_append.2 ⟨hinert h.2, ?_⟩⟩, by simp⟩
    exact List.forall_mem_singleton.2 rfl
  | octal hc =>
    obtain ⟨hfirst, hdigits⟩ := List.forall_mem_cons.1 hc
    refine .inr ⟨_, _, rfl, hinert fun b hb => isHex_of_isOctal (hdigits b hb), fun h => ?_⟩
    exact absurd h (ne_of_isOctal hfirst).2.1
  | control h =>
    refine .inr ⟨_, [], rfl, by simp, ?_⟩
    simp only [controls, List.mem_cons, List.not_mem_nil, or_false] at h
    rcases h with rfl | rfl | rfl | rfl | rfl | rfl <;> simp
  | unknown h =>
    refine .inr ⟨_, [], rfl, by simp, ?_⟩
    rintro rfl
    exact absurd h.1 (by decide)

section Closed

variable (hquote : quote = .char '"' ∨ quote = .char '\'')
include hquote

theorem stringLength?_inert {a : Text} (ha : ∀ b ∈ a, isInert b = true) (r : Text) :
    stringLength? quote (a ++ r) = (stringLength? quote r).map (· + a.length) := by
  induction a with
  | nil => simp
  | cons c a ih =>
    obtain ⟨hc, ha⟩ := List.forall_mem_cons.1 ha
    have hplain : c ≠ .char '\\' ∧ c ≠ quote ∧ c ≠ .char '\n' ∧ c ≠ .char '\r' := by
      refine ⟨?_, ?_, ?_, ?_⟩ <;> rintro rfl <;> revert hc
      · decide
      · rcases hquote with rfl | rfl <;> decide
      · decide
      · decide
    obtain ⟨hb, hq, hn, hr⟩ := hplain
    rw [List.cons_append, stringLength?.eq_4 _ _ _ (fun _ h => (hb h).elim)
      (fun _ _ h => (hb h).elim), if_neg hq, if_neg (by simp [hn, hr]), ih ha]
    cases stringLength? quote r <;> simp [Nat.add_assoc]

/-- no quote of an escape ends the literal -/
theorem stringLength?_escapes (h : Escapes e r d) :
    stringLength? quote (.char '\\' :: (e ++ r ++ [quote])) =
      (stringLength? quote (r ++ [quote])).map (· + (e.length + 1)) := by
  rcases h.inert with rfl | ⟨c, tail, rfl, htail, hcr⟩
  · rfl
  · have hhead : ∀ r', c = .char '\r' → tail ++ r ++ [quote] = .char '\n' :: r' → False := by
      intro r' hc hr'
      cases hrest : tail ++ r with
      | nil =>
        rw [hrest] at hr'
        have hq : quote = .char '\n' := (List.cons.inj hr').1
        rcases hquote with rfl | rfl <;> exact absurd hq (by decide)
      | cons b rest =>
        rw [hrest] at hr'
        refine hcr hc ?_
        rw [hrest, (List.cons.inj hr').1]
        rfl
    rw [List.cons_append, List.cons_append, stringLength?.eq_3 _ _ _ hhead, List.append_assoc,
      stringLength?_inert hquote htail]
    cases stringLength? quote (r ++ [quote]) <;> simp [Nat.add_assoc]

/-- a body up to its closing quote denotes something, or is faulty -/
theorem denotes_or_faulty {body : Text}
    (h : stringLength? quote (body ++ [quote]) = some (body.length + 1)) :
    (∃ t, Denotes body t) ∨ ∃ f, Faulty body f := by
  -- an escape takes several characters at once, so what is behind it is shorter but not the tail
  induction hn : body.length using Nat.strong_induction_on generalizing body with
  | _ n ih =>
    cases body with
    | nil => exact .inl ⟨[], .nil⟩
    | cons c r =>
      by_cases hc : c = .char '\\'
      · subst hc
        cases r with
        | nil => rcases hquote with rfl | rfl <;> cases h
        | cons c r =>
          rcases escapes_or_faulty c r with ⟨e, r', d, her, hescapes⟩ | hfaulty
          · rw [her] at h hn ⊢
            rw [List.cons_append, stringLength?_escapes hquote hescapes] at h
            obtain ⟨m, hm, hlength⟩ := Option.map_eq_some_iff.1 h
            simp only [List.length_cons, List.length_append] at hlength hn
            have hm' : stringLength? quote (r' ++ [quote]) = some (r'.length + 1) := by
              rw [hm]
              congr 1
              omega
            rcases ih r'.length (by omega) hm' rfl with ⟨t, ht⟩ | ⟨f, hf⟩
            · exact .inl ⟨d ++ t, .escape hescapes ht⟩
            · exact .inr ⟨f, .escape hescapes hf⟩
          · exact .inr hfaulty
      · rw [List.cons_append, stringLength?.eq_4 _ _ _ (fun _ h => (hc h).elim)
          (fun _ _ h => (hc h).elim)] at h
        split_ifs at h with hq hend
        · simp at h
        · obtain ⟨m, hm, hlength⟩ := Option.map_eq_some_iff.1 h
          rw [List.length_cons] at hlength hn
          obtain rfl : m = r.length + 1 := by omega
          rcases ih r.length (by omega) hm rfl with ⟨t, ht⟩ | ⟨f, hf⟩
          · exact .inl ⟨c :: t, .char hc ht⟩
          · exact .inr ⟨f, .char hc hf⟩

theorem units_eq_ok (h : stringLength? quote (body ++ [quote]) = some (body.length + 1)) :
    units 0 body = .ok t ↔ Denotes body t := by
  refine ⟨fun hunits => ?_, units_of_denotes⟩
  rcases denotes_or_faulty hquote h with ⟨t', ht⟩ | ⟨f, hf⟩
  · rw [units_of_denotes ht] at hunits
    cases hunits
    exact ht
  · rw [units_of_faulty hf] at hunits
    cases hunits

theorem units_eq_error (h : stringLength? quote (body ++ [quote]) = some (body.length + 1)) :
    units 0 body = .error f ↔ Faulty body f := by
  refine ⟨fun hunits => ?_, units_of_faulty⟩
  rcases denotes_or_faulty hquote h with ⟨t', ht⟩ | ⟨f, hf⟩
  · rw [units_of_denotes ht] at hunits
    cases hunits
  · rw [units_of_faulty hf] at hunits
    cases hunits
    exact hf

end Closed

/-! ## surrogates -/

theorem pairValue_of_halves {h l : Fin 2048} (hc : c.halves = [.surrogate h, .surrogate l]) :
    (CodePoint.surrogate h).isHigh = true ∧ (CodePoint.surrogate l).isLow = true ∧
    pairValue h l = c := by
  have hbound := c.value_lt
  unfold CodePoint.halves at hc
  split_ifs at hc with hlt
  · simp at hc
  · simp only [List.cons.injEq, CodePoint.surrogate.injEq, and_true] at hc
    obtain ⟨rfl, rfl⟩ := hc
    refine ⟨by simp only [CodePoint.isHigh, decide_eq_true_eq]; omega,
      by simp only [CodePoint.isLow, decide_eq_true_eq]; omega, ?_⟩
    have hvalue :
        0x10000 + (c.value - 0x10000) / 0x400 * 0x400 +
          (0x400 + (c.value - 0x10000) % 0x400 - 0x400) = c.value := by omega
    simp only [pairValue, hvalue, ofNat?_value, Option.getD_some]

theorem joined_pair {h l : Fin 2048} (hh : (CodePoint.surrogate h).isHigh = true)
    (hl : (CodePoint.surrogate l).isLow = true) (r : Text) :
    joined (.surrogate h :: .surrogate l :: r) = pairValue h l :: joined r := by
  rw [joined, if_pos (by rw [hh, hl]; rfl)]

theorem joined_unpaired {h : Fin 2048}
    (hr : (CodePoint.surrogate h).isHigh = true → ∀ l ∈ r.head?, l.isLow = false) :
    joined (.surrogate h :: r) = .surrogate h :: joined r := by
  cases r with
  | nil => rfl
  | cons c r =>
    cases c with
    | char c => rfl
    | surrogate l =>
      rw [joined, if_neg]
      rintro hpair
      rw [Bool.and_eq_true] at hpair
      exact absurd hpair.2 (by simp [hr hpair.1 _ rfl])

theorem joined_halves_char (c : Char) (r : Text) :
    joined ((CodePoint.char c).halves ++ r) = .char c :: joined r := by
  rcases (CodePoint.char c).halves_eq with h | ⟨-, m, n, h⟩
  · rw [h]; rfl
  · obtain ⟨hm, hn, hpair⟩ := pairValue_of_halves h
    rw [h, List.cons_append, List.singleton_append, joined_pair hm hn, hpair]

theorem halves_surrogate (h : Fin 2048) (r : Text) :
    Text.halves (.surrogate h :: r) = .surrogate h :: Text.halves r := by
  rw [Text.halves_cons_eq, CodePoint.halves_of_lt (by simp only [CodePoint.value]; omega)]
  rfl

theorem isLow_head_halves (c : Char) (r : Text) : ∀ l ∈ ((CodePoint.char c).halves ++ r).head?,
    l.isLow = false := by
  rcases (CodePoint.char c).halves_eq with h | ⟨-, m, n, h⟩
  · rw [h]
    simp [CodePoint.isLow]
  · obtain ⟨hm, -, -⟩ := pairValue_of_halves h
    simp only [CodePoint.isHigh, decide_eq_true_eq] at hm
    rw [h]
    simp [CodePoint.isLow, hm]

/-- joining makes no difference between a character and its halves -/
theorem joined_halves (t : Text) : joined t.halves = joined t := by
  induction t using joined.induct with
  | case1 h l r hpair ih =>
    rw [Bool.and_eq_true] at hpair
    rw [halves_surrogate, halves_surrogate, joined_pair hpair.1 hpair.2,
      joined_pair hpair.1 hpair.2, ih]
  | case2 h l r hpair ih =>
    have hlow : (CodePoint.surrogate h).isHigh = true → (CodePoint.surrogate l).isLow = false := by
      simpa using hpair
    rw [halves_surrogate, joined_unpaired (r := .surrogate l :: r) (by simpa using hlow),
      joined_unpaired, ih]
    rw [halves_surrogate]
    simpa using hlow
  | case3 c r hc ih =>
    cases c with
    | char c => rw [Text.halves_cons_eq, joined_halves_char, ih]; rfl
    | surrogate h =>
      cases r with
      | nil => rw [halves_surrogate]; rfl
      | cons d r =>
        cases d with
        | char d =>
          -- the halves of a character begin with a first half, if they are surrogates at all
          rw [halves_surrogate, Text.halves_cons_eq, joined_unpaired fun _ =>
            isLow_head_halves d (Text.halves r), ← Text.halves_cons_eq, ih]
          rfl
        | surrogate l => exact absurd rfl (hc h l r rfl)
  | case4 => rfl

theorem isScalar_pairValue {h l : Fin 2048} (hh : (CodePoint.surrogate h).isHigh = true)
    (hl : (CodePoint.surrogate l).isLow = true) : (pairValue h l).isScalar = true := by
  have hhalves := Text.halves_pairValue hh hl
  cases hc : pairValue h l with
  | char c => rfl
  | surrogate n =>
    rw [hc, CodePoint.halves_of_lt (by simp only [CodePoint.value]; omega)]
      at hhalves; cases hhalves

theorem not_scalar_surrogate {h : Fin 2048} : ¬ Text.Scalar (.surrogate h :: r) := fun hscalar => by
  cases (Text.scalar_cons.1 hscalar).1

/-- pairs are joined only where no surrogate is left over -/
theorem joinPairs?_eq_some {t' : Text} : joinPairs? t = some t' ↔ joined t = t' ∧
    (joined t).Scalar := by
  induction t using joinPairs?.induct generalizing t' with
  | case1 => simp [joinPairs?, joined, Text.scalar_nil]
  | case2 c r ih =>
    have hjoined : joined (.char c :: r) = .char c :: joined r := rfl
    rw [joinPairs?, hjoined, Text.scalar_cons, Option.map_eq_some_iff]
    constructor
    · rintro ⟨r', hr', rfl⟩
      obtain ⟨rfl, hscalar⟩ := ih.1 hr'
      exact ⟨rfl, rfl, hscalar⟩
    · rintro ⟨rfl, -, hscalar⟩
      exact ⟨_, ih.2 ⟨rfl, hscalar⟩, rfl⟩
  | case3 h l r hpair ih =>
    rw [joinPairs?, if_pos hpair]
    rw [Bool.and_eq_true] at hpair
    rw [joined_pair hpair.1 hpair.2, Text.scalar_cons, Option.map_eq_some_iff]
    constructor
    · rintro ⟨r', hr', rfl⟩
      obtain ⟨rfl, hscalar⟩ := ih.1 hr'
      exact ⟨rfl, isScalar_pairValue hpair.1 hpair.2, hscalar⟩
    · rintro ⟨rfl, -, hscalar⟩
      exact ⟨_, ih.2 ⟨rfl, hscalar⟩, rfl⟩
  | case4 h l r hpair =>
    rw [joinPairs?, if_neg hpair, joined_unpaired (by simpa using hpair)]
    exact iff_of_false (by simp) fun h => not_scalar_surrogate h.2
  | case5 h r hr =>
    have hjoined : joined (.surrogate h :: r) = .surrogate h :: joined r := by
      refine joined_unpaired fun _ l hl => ?_
      cases l with
      | char l => rfl
      | surrogate l =>
        obtain ⟨r', rfl⟩ := List.head?_eq_some_iff.1 hl
        exact absurd rfl (hr l r')
    rw [joinPairs?.eq_4 _ _ hr, hjoined]
    exact iff_of_false (by simp) fun h => not_scalar_surrogate h.2

/-- Surrogate pairs are joined if no surrogate is left over, else none is. -/
theorem getD_joinPairs? (t : Text) :
    (joined t.halves).Scalar ∧ (joinPairs? t).getD t = joined t.halves ∨
    ¬ (joined t.halves).Scalar ∧ (joinPairs? t).getD t = t := by
  rw [joined_halves]
  cases hpairs : joinPairs? t with
  | none =>
    refine .inr ⟨fun hscalar => ?_, rfl⟩
    rw [joinPairs?_eq_some.2 ⟨rfl, hscalar⟩] at hpairs
    cases hpairs
  | some v =>
    obtain ⟨rfl, hscalar⟩ := joinPairs?_eq_some.1 hpairs
    exact .inl ⟨hscalar, rfl⟩

theorem halves_getD_joinPairs? (t : Text) : ((joinPairs? t).getD t).halves = t.halves := by
  cases hpairs : joinPairs? t with
  | none => rfl
  | some v => exact Text.halves_of_joinPairs? hpairs

/-! ## values -/

/-- a string between its quotes -/
theorem exists_body (h : Readable .string literal) :
    ∃ quote body, (quote = .char '"' ∨ quote = .char '\'') ∧
    literal = quote :: (body ++ [quote]) ∧
    stringLength? quote (body ++ [quote]) = some (body.length + 1) := by
  obtain ⟨ctx, c, t, rest, rfl, hread⟩ := h
  obtain ⟨hquote, hlength⟩ := hread.of_string
  obtain ⟨body, hbody⟩ := stringLength?_take hlength
  obtain ⟨-, -, hown⟩ := stringLength?_spec (by rcases hquote with rfl | rfl <;> decide) hlength
  have hown := hown []
  rw [List.take_left] at hbody hown
  subst hbody
  rw [List.append_nil, List.length_append] at hown
  exact ⟨c, body, hquote, rfl, hown⟩

theorem denotes_self (h : ∀ c ∈ body, c ≠ .char '\\') : Denotes body body := by
  induction body with
  | nil => exact .nil
  | cons c r ih =>
    obtain ⟨hc, hr⟩ := List.forall_mem_cons.1 h
    exact .char hc (ih hr)

/-- The value of a string is read off its units, also where it has no escape. -/
theorem value_eq (hscalar : literal.Scalar) : value literal =
    match units 0 literal.tail.dropLast with
    | .ok t => .ok ((joinPairs? t).getD t)
    | .error f => .error (refusal literal f) := by
  set body := literal.tail.dropLast with hbody
  rw [value, ← hbody]
  cases hc : body.contains (.char '\\') with
  | true => rw [Bool.not_true]; rcases units 0 body with (_ | _) | t <;> rfl
  | false =>
    have hne : ∀ c ∈ body, c ≠ .char '\\' := by
      rintro c hmem rfl
      rw [List.contains_iff_mem.2 hmem] at hc
      cases hc
    have hscalar : Text.Scalar body :=
      hscalar.of_subset (List.Subset.trans (List.dropLast_subset _) (List.tail_subset _))
    have hpairs : (joinPairs? body).getD body = body := by
      rw [joinPairs?_of_scalar (List.all_eq_true.2 hscalar)]; rfl
    rw [units_of_denotes (denotes_self hne)]
    exact congrArg Except.ok hpairs.symm

/-- **The value of a string.** A literal is refused for the first escape that is none of the
language, and otherwise has a value with the units that its characters and escapes denote. -/
theorem value_denotes (htoken : Readable .string literal) (hscalar : literal.Scalar) :
    ∃ quote body, (quote = .char '"' ∨ quote = .char '\'') ∧ literal = quote :: (body ++ [quote]) ∧
      (∀ e, value literal = .error e ↔ ∃ f, Faulty body f ∧ e = refusal literal f) ∧
      ∀ v, value literal = .ok v ↔ ∃ t, Denotes body t ∧ v.halves = t.halves ∧
        ((joined t.halves).Scalar ∧ v = joined t.halves ∨ ¬ (joined t.halves).Scalar ∧ v = t) := by
  obtain ⟨quote, body, hquote, hliteral, hclosed⟩ := exists_body htoken
  have hvalue := value_eq hscalar
  rw [show literal.tail.dropLast = body by rw [hliteral]; simp] at hvalue
  refine ⟨quote, body, hquote, hliteral, fun e => ?_, fun v => ?_⟩
  · simp only [← units_eq_error hquote hclosed]
    cases hunits : units 0 body with
    | error f =>
      rw [hvalue, hunits]
      constructor
      · intro h
        exact ⟨f, rfl, (Except.error.inj h).symm⟩
      · rintro ⟨f', hf, rfl⟩
        rw [Except.error.inj hf]
    | ok t =>
      rw [hvalue, hunits]
      simp
  · simp only [← units_eq_ok hquote hclosed]
    cases hunits : units 0 body with
    | error f =>
      rw [hvalue, hunits]
      simp
    | ok t =>
      rw [hvalue, hunits]
      constructor
      · intro h
        obtain rfl := Except.ok.inj h
        exact ⟨t, rfl, halves_getD_joinPairs? t, getD_joinPairs? t⟩
      · rintro ⟨t', ht, -, hv⟩
        obtain rfl := Except.ok.inj ht
        rcases hv with ⟨hs, hv⟩ | ⟨hs, hv⟩ <;> rcases getD_joinPairs? t with ⟨hs', h⟩ | ⟨hs', h⟩
        · exact congrArg Except.ok (h.trans hv.symm)
        · exact absurd hs hs'
        · exact absurd hs' hs
        · exact congrArg Except.ok (h.trans hv.symm)

/-- escapes of every kind, and a pair written by units, by braces and as a character -/
def varied : Text := "'\\x41\\ud83d\\ude00\\u\x7b1F600\x7d😀\\2513\\n\\q\\\r\nz'"

theorem value_denotes_varied : Readable .string varied ∧ varied.Scalar ∧ ∃ quote body t,
    varied = quote :: (body ++ [quote]) ∧ Denotes body t ∧ value varied = .ok (joined t.halves) ∧
      joined t.halves = Text.ofString "A😀😀😀©3\nqz" := by
  have htoken :
      (TokenStream.ofText varied).tokens.any (fun k => k.kind = .string && k.text = varied) =
      true := by
    decide +kernel
  obtain ⟨k, hk, hkind⟩ := List.any_eq_true.1 htoken
  simp only [Bool.and_eq_true, decide_eq_true_eq] at hkind
  have hreadable : Readable .string varied := hkind.1 ▸ hkind.2 ▸ TokenStream.readable_of_mem hk
  have hscalar : varied.Scalar := Text.scalar_ofString _
  have hany : (value varied).toOption.any (· = Text.ofString "A😀😀😀©3\nqz") = true := by
    decide +kernel
  obtain ⟨v, hv, htext⟩ := Except.exists_of_any hany
  obtain rfl := of_decide_eq_true htext
  obtain ⟨quote, body, -, hliteral, -, hvalue⟩ := value_denotes hreadable hscalar
  obtain ⟨t, ht, -, ⟨-, hjoined⟩ | ⟨hnot, rfl⟩⟩ := (hvalue _).1 hv
  · exact ⟨hreadable, hscalar, quote, body, t, hliteral, ht, hjoined ▸ hv, hjoined.symm⟩
  · refine absurd ?_ hnot
    rw [joined_halves]
    exact (joinPairs?_eq_some.1 (joinPairs?_of_scalar rfl)).2

/-- A surrogate that is left over keeps the pair before it apart. -/
theorem value_unjoined : Readable .string (Text.ofString "'\\ud83d\\ude00\\ud800'") ∧
    ∃ body t, Text.ofString "'\\ud83d\\ude00\\ud800'" = .char '\'' :: (body ++ [.char '\'']) ∧
      Denotes body t ∧ value (Text.ofString "'\\ud83d\\ude00\\ud800'") = .ok t ∧
      joined t.halves = [.char '😀', .surrogate 0] ∧ joined t.halves ≠ t := by
  have hdenotes :
      Denotes (Text.ofString "\\ud83d\\ude00\\ud800") [.surrogate 0x3d, .surrogate 0x600,
        .surrogate 0] :=
    (units_eq_ok (.inr rfl) (by decide)).1 rfl
  have hany : (value (Text.ofString "'\\ud83d\\ude00\\ud800'")).toOption.any
      (· = [.surrogate 0x3d, .surrogate 0x600, .surrogate 0]) = true := by decide +kernel
  obtain ⟨v, hv, htext⟩ := Except.exists_of_any hany
  obtain rfl := of_decide_eq_true htext
  exact ⟨readable_of_front (by decide), Text.ofString "\\ud83d\\ude00\\ud800", _, rfl, hdenotes,
    hv, by decide, by decide⟩

end Literal

end Relocation
