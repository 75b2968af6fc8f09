import Mathlib.Tactic.Common
import Relocation.Token.Context
import Relocation.Proofs.Punctuation

/-!
# What stands at the front of a text

`Reads` lists what can be read at the front of a text, and on what that depends; `Refuses` lists why
nothing is. `front_eq_ok` and `front_eq_error` say that these are what `front` gives.
-/

namespace Relocation.Token.Context

open Lexical

/-- no blank, no bracket, no quote and no backtick -/
def isPlain (c : CodePoint) : Bool :=
  !isWhitespace c && !c.isLineTerminator &&
    !List.contains [.char '(', .char ')', .char '[', .char ']', .char '\x7b', .char '\x7d',
      .char '\x60', .char '"', .char '\''] c

/-- brackets that are read alike in every context -/
def bracketKind? (c : CodePoint) : Option Kind :=
  if c = .char '(' then some .openParen
  else if c = .char ')' then some .closeParen
  else if c = .char '[' then some .openSquare
  else if c = .char ']' then some .closeSquare
  else if c = .char '\x7b' then some .openBrace
  else none

/-- does a comment begin with a slash before the text? -/
def opensComment (r : Text) : Bool := r.head? = some (.char '/') || r.head? = some (.char '*')

/-- does a number begin here? -/
def opensNumber (c : CodePoint) (r : Text) : Bool :=
  c.isDigitValued || (c = .char '.' && r.head?.any (·.isDigitValued))

/-- what is read at the front of `c :: r`, and how many characters of `r` belong to it -/
inductive Reads (ctx : Context) (c : CodePoint) (r : Text) : Front → Nat → Prop
  | blanks (hc : isWhitespace c = true) : Reads ctx c r .gap (runLength isWhitespace r)
  | terminator (hc : c.isLineTerminator = true) :
    Reads ctx c r .gap (if c = .char '\r' && r.head? = some (.char '\n') then 1 else 0)
  | line {r' : Text} (hc : c = .char '/') (hr : r = .char '/' :: r') :
    Reads ctx c r .gap (1 + lineLength r')
  | comment {r' : Text} {n : Nat} (hc : c = .char '/') (hr : r = .char '*' :: r')
    (h : commentLength? r' = some n) : Reads ctx c r .gap (1 + n)
  | bracket {kind : Kind} (h : bracketKind? c = some kind) : Reads ctx c r (.token kind) 0
  | closeBrace (hc : c = .char '\x7d') (h : ctx.braces.head? ≠ some .template) :
    Reads ctx c r (.token .closeBrace) 0
  | resume {n : Nat} {opens : Bool} (hc : c = .char '\x7d') (hb : ctx.braces.head? = some .template)
    (h : templateLength? r = some (n, opens)) :
    Reads ctx c r (.token (if opens then .templateMiddle else .templateTail)) n
  | template {n : Nat} {opens : Bool} (hc : c = .char '\x60')
    (h : templateLength? r = some (n, opens)) :
    Reads ctx c r (.token (if opens then .templateHead else .template)) n
  | string {n : Nat} (hc : c = .char '"' ∨ c = .char '\'') (h : stringLength? c r = some n) :
    Reads ctx c r (.token .string) n
  | number {n : Nat} (hc : isPlain c = true) (ho : opensNumber c r = true)
    (h : numberLength (c :: r) = n + 1) : Reads ctx c r (.token .number) n
  | word (hc : isPlain c = true) (hd : c.isDigitValued = false) (hs : isNameStart c = true) :
    Reads ctx c r
      (.token
        (ctx.nameKind (c :: r.take (runLength isNamePart r)) (r.drop (runLength isNamePart r))))
      (runLength isNamePart r)
  | hidden (hc : c = .char '#') (hr : r.head?.any isNameStart = true) :
    Reads ctx c r (.token .name) (runLength isNamePart r)
  | regex {n : Nat} (hc : c = .char '/') (hr : opensComment r = false)
    (hs : ctx.slashOpensRegex = true) (h : regexLength? false r = some n) :
    Reads ctx c r (.token .regex) n
  | slash (hc : c = .char '/') (hr : opensComment r = false) (hs : ctx.slashOpensRegex = false) :
    Reads ctx c r (.token .punct) (if r.head? = some (.char '=') then 1 else 0)
  | punct {n : Nat} (ho : opensNumber c r = false) (h : punctuatorLength? (c :: r) = some (n + 1)) :
    Reads ctx c r (.token .punct) n

/-- why nothing is read at the front of `c :: r` -/
inductive Refuses (ctx : Context) (c : CodePoint) (r : Text) : Refusal → Prop
  | comment {r' : Text} (hc : c = .char '/') (hr : r = .char '*' :: r')
    (h : commentLength? r' = none) : Refuses ctx c r (.fault .unterminatedComment)
  | resume (hc : c = .char '\x7d') (hb : ctx.braces.head? = some .template)
    (h : templateLength? r = none) : Refuses ctx c r (.fault .unterminatedTemplate)
  | template (hc : c = .char '\x60') (h : templateLength? r = none) :
    Refuses ctx c r (.fault .unterminatedTemplate)
  | string (hc : c = .char '"' ∨ c = .char '\'') (h : stringLength? c r = none) :
    Refuses ctx c r (.fault .unterminatedString)
  | digit (hc : isPlain c = true) (ho : opensNumber c r = true) (h : numberLength (c :: r) = 0) :
    Refuses ctx c r .strayDigit
  | regex (hc : c = .char '/') (hr : opensComment r = false) (hs : ctx.slashOpensRegex = true)
    (h : regexLength? false r = none) : Refuses ctx c r (.fault .unterminatedRegex)
  | character (hc : isPlain c = true) (ho : opensNumber c r = false) (hs : isNameStart c = false)
    (hh : c = .char '#' → r.head?.any isNameStart = false) (hslash : c ≠ .char '/')
    (h : punctuatorLength? (c :: r) = none) : Refuses ctx c r (.fault (.unexpectedCharacter c))

/-- what is given for the front of `c :: r` is read there, or refused -/
def Settles (ctx : Context) (c : CodePoint) (r : Text) : Except Refusal (Front × Nat) → Prop
  | .ok (f, n) => Reads ctx c r f n
  | .error e => Refuses ctx c r e

variable {ctx : Context} {c : CodePoint} {r : Text} {f : Front} {n : Nat} {e : Refusal}

/-- behind blanks, comments, brackets and literals with quotes -/
theorem front_plain (hc : isPlain c = true) (hr : c = .char '/' → opensComment r = false) :
    ctx.front c r =
      if opensNumber c r then
        match numberLength (c :: r) with
        | 0 => .error .strayDigit
        | n + 1 => .ok (.token .number, n)
      else if isNameStart c then
        .ok (.token (ctx.nameKind (c :: r.take (runLength isNamePart r))
          (r.drop (runLength isNamePart r))), runLength isNamePart r)
      else
        if c = .char '#' && r.head?.any isNameStart then .ok (.token .name, runLength isNamePart r)
      else if c = .char '/' then
        if ctx.slashOpensRegex then
          match regexLength? false r with
          | none => .error (.fault .unterminatedRegex)
          | some n => .ok (.token .regex, n)
        else .ok (.token .punct, if r.head? = some (.char '=') then 1 else 0)
      else
        match punctuatorLength? (c :: r) with
        | none => .error (.fault (.unexpectedCharacter c))
        | some n => .ok (.token .punct, n - 1) := by
  simp only [isPlain, Bool.and_eq_true, Bool.not_eq_true', List.contains_eq_mem,
    decide_eq_false_iff_not, List.mem_cons, not_or] at hc
  obtain ⟨⟨hw, ht⟩, h1, h2, h3, h4, h5, h6, h7, h8, h9, -⟩ := hc
  have hr1 : ∀ r', c = .char '/' → r = .char '/' :: r' → False := by
    rintro r' hc rfl
    exact absurd (hr hc) (by simp [opensComment])
  have hr2 : ∀ r', c = .char '/' → r = .char '*' :: r' → False := by
    rintro r' hc rfl
    exact absurd (hr hc) (by simp [opensComment])
  rw [front.eq_10 _ _ _ h1 h2 h3 h4 h5 h6 h7 hr1 hr2, if_neg (by simp [hw]), if_neg (by simp [ht]),
    if_neg (by simp [h8, h9])]
  rfl

theorem front_string (hc : c = .char '"' ∨ c = .char '\'') :
    ctx.front c r =
      match stringLength? c r with
      | none => .error (.fault .unterminatedString)
      | some n => .ok (.token .string, n) := by
  rcases hc with rfl | rfl <;> rfl

theorem front_closeBrace :
    ctx.front (.char '\x7d') r =
      if ctx.braces.head? = some .template then
        (templateFront .templateTail .templateMiddle r).mapError .fault
      else .ok (.token .closeBrace, 0) := rfl

theorem templateFront_eq_ok {whole opening : Kind} :
    (templateFront whole opening r).mapError Refusal.fault = .ok (f, n) ↔
      ∃ opens, templateLength? r = some (n, opens) ∧
      f = .token (if opens then opening else whole) := by
  unfold templateFront
  cases h : templateLength? r with
  | none => simp [Except.mapError]
  | some m =>
    obtain ⟨m, opens⟩ := m
    simp only [Except.mapError, Except.ok.injEq, Prod.mk.injEq, Option.some.injEq]
    constructor
    · rintro ⟨rfl, rfl⟩
      exact ⟨opens, ⟨rfl, rfl⟩, rfl⟩
    · rintro ⟨_, ⟨rfl, rfl⟩, rfl⟩
      exact ⟨rfl, rfl⟩

theorem templateFront_eq_error {whole opening : Kind} :
    (templateFront whole opening r).mapError Refusal.fault = .error e ↔
      templateLength? r = none ∧ e = .fault .unterminatedTemplate := by
  unfold templateFront
  cases h : templateLength? r with
  | none => simp [Except.mapError, eq_comm]
  | some m => simp [Except.mapError]

theorem settles_templateFront {whole opening : Kind}
    (hok : ∀ n opens, templateLength? r = some (n, opens) →
      Reads ctx c r (.token (if opens then opening else whole)) n)
    (herror : templateLength? r = none → Refuses ctx c r (.fault .unterminatedTemplate)) :
    Settles ctx c r ((templateFront whole opening r).mapError .fault) := by
  cases h : (templateFront whole opening r).mapError Refusal.fault with
  | ok read =>
    obtain ⟨opens, hlength, hfront⟩ := templateFront_eq_ok.1 h
    have := hok _ _ hlength
    rwa [← hfront] at this
  | error e =>
    obtain ⟨hlength, rfl⟩ := templateFront_eq_error.1 h
    exact herror hlength

theorem settles_front_plain (hc : isPlain c = true) (hr : c = .char '/' → opensComment r = false) :
    Settles ctx c r (ctx.front c r) := by
  rw [front_plain hc hr]
  by_cases ho : opensNumber c r = true
  · rw [if_pos ho]
    split
    · exact Refuses.digit hc ho ‹_›
    · exact Reads.number hc ho ‹_›
  rw [if_neg ho]
  have ho : opensNumber c r = false := by simpa using ho
  by_cases hs : isNameStart c = true
  · rw [if_pos hs]
    refine Reads.word hc ?_ hs
    simp only [opensNumber, Bool.or_eq_false_iff] at ho
    exact ho.1
  rw [if_neg hs]
  by_cases hh : (c = .char '#' && r.head?.any isNameStart) = true
  · rw [if_pos hh]
    simp only [Bool.and_eq_true, decide_eq_true_eq] at hh
    exact Reads.hidden hh.1 hh.2
  rw [if_neg hh]
  by_cases hslash : c = .char '/'
  · rw [if_pos hslash]
    by_cases hre : ctx.slashOpensRegex = true
    · rw [if_pos hre]
      split
      · exact Refuses.regex hslash (hr hslash) hre ‹_›
      · exact Reads.regex hslash (hr hslash) hre ‹_›
    · rw [if_neg hre]
      exact Reads.slash hslash (hr hslash) (by simpa using hre)
  · rw [if_neg hslash]
    cases hp : punctuatorLength? (c :: r) with
    | none => exact Refuses.character hc ho (by simpa using hs) (by simpa using hh) hslash hp
    | some m =>
      refine Reads.punct ho ?_
      have := (punctuatorLength?_eq_some hp).1
      rw [hp, Nat.sub_add_cancel this]

theorem settles_front (ctx : Context) (c : CodePoint) (r : Text) :
    Settles ctx c r (ctx.front c r) := by
  by_cases hw : isWhitespace c = true
  · rw [front.eq_def, if_pos hw]
    exact Reads.blanks hw
  by_cases ht : c.isLineTerminator = true
  · rw [front.eq_def, if_neg hw, if_pos ht]
    exact Reads.terminator ht
  by_cases hc : isPlain c = true
  · by_cases hslash : c = .char '/' ∧ opensComment r = true
    · obtain ⟨rfl, hr⟩ := hslash
      simp only [opensComment, Bool.or_eq_true, decide_eq_true_eq, List.head?_eq_some_iff] at hr
      rcases hr with ⟨r', rfl⟩ | ⟨r', rfl⟩
      · exact Reads.line rfl rfl
      · rw [front.eq_2, if_neg hw, if_neg ht]
        split
        · exact Refuses.comment rfl rfl ‹_›
        · exact Reads.comment rfl rfl ‹_›
    · exact settles_front_plain hc fun hs => by simpa [hs] using hslash
  · -- one of the characters that decide alone
    simp only [isPlain, Bool.and_eq_true, Bool.not_eq_true', not_and, Bool.not_eq_false,
      List.contains_eq_mem, decide_eq_true_eq, Bool.not_eq_true] at hc hw ht
    have hc := hc ⟨hw, ht⟩
    simp only [List.mem_cons, List.not_mem_nil, or_false] at hc
    rcases hc with rfl | rfl | rfl | rfl | rfl | rfl | rfl | rfl | rfl
    · exact Reads.bracket rfl
    · exact Reads.bracket rfl
    · exact Reads.bracket rfl
    · exact Reads.bracket rfl
    · exact Reads.bracket rfl
    · rw [front_closeBrace]
      split
      · exact settles_templateFront (fun _ _ => .resume rfl ‹_›) (.resume rfl ‹_›)
      · exact Reads.closeBrace rfl ‹_›
    · exact settles_templateFront (fun _ _ => .template rfl) (.template rfl)
    · rw [front_string (.inl rfl)]
      split
      · exact Refuses.string (.inl rfl) ‹_›
      · exact Reads.string (.inl rfl) ‹_›
    · rw [front_string (.inr rfl)]
      split
      · exact Refuses.string (.inr rfl) ‹_›
      · exact Reads.string (.inr rfl) ‹_›

theorem isWhitespace_of_isLineTerminator (hc : c.isLineTerminator = true) :
    isWhitespace c = false := by
  simp only [CodePoint.isLineTerminator, Bool.or_eq_true, decide_eq_true_eq] at hc
  rcases hc with ((rfl | rfl) | rfl) | rfl <;> decide

/-- what a punctuator may begin with -/
theorem isPlain_of_punctuator (h : punctuatorLength? (c :: r) = some (n + 1)) :
    isPlain c = true ∧ isNameStart c = false ∧ c ≠ .char '#' ∧ c ≠ .char '/' := by
  have hmem := (punctuatorLength?_eq_some h).2.2
  rw [List.take_succ_cons] at hmem
  have hall : ∀ q ∈ punctuators, ∀ c ∈ q.head?,
      isPlain c = true ∧ isNameStart c = false ∧ c ≠ .char '#' ∧ c ≠ .char '/' := by decide
  exact hall _ hmem c rfl

theorem front_of_reads (h : Reads ctx c r f n) : ctx.front c r = .ok (f, n) := by
  cases h with
  | blanks hc => rw [front.eq_def, if_pos hc]
  | terminator hc =>
    rw [front.eq_def, if_neg (by rw [isWhitespace_of_isLineTerminator hc]; decide), if_pos hc]
  | line hc hr =>
    subst hc hr
    rfl
  | comment hc hr hn =>
    subst hc hr
    rw [front.eq_2, hn]
    rfl
  | bracket hk =>
    unfold bracketKind? at hk
    split at hk
    · cases hk; subst c; rfl
    split at hk
    · cases hk; subst c; rfl
    split at hk
    · cases hk; subst c; rfl
    split at hk
    · cases hk; subst c; rfl
    split at hk
    · cases hk; subst c; rfl
    · cases hk
  | closeBrace hc hb =>
    subst hc
    rw [front_closeBrace, if_neg hb]
  | resume hc hb hn =>
    subst hc
    rw [front_closeBrace, if_pos hb]
    exact templateFront_eq_ok.2 ⟨_, hn, rfl⟩
  | template hc hn =>
    subst hc
    exact templateFront_eq_ok.2 ⟨_, hn, rfl⟩
  | string hc hn => rw [front_string hc, hn]
  | number hc ho hn =>
    rw [front_plain hc (by rintro rfl; exact absurd ho (by simp [opensNumber]; decide)),
      if_pos ho, hn]
  | word hc hd hs =>
    have hpoint : c ≠ .char '.' := by rintro rfl; exact absurd hs (by decide)
    rw [front_plain hc (by rintro rfl; exact absurd hs (by decide)),
      if_neg (by simp [opensNumber, hd, hpoint]), if_pos hs]
  | hidden hc hr =>
    subst hc
    rw [front_plain (by decide) (fun h => absurd h (by decide)),
      if_neg (by simp [opensNumber]; decide), if_neg (by decide), if_pos (by simpa using hr)]
  | regex hc hr hs hn =>
    subst hc
    rw [front_plain (by decide) (fun _ => hr), if_neg (by simp [opensNumber]; decide),
      if_neg (by decide), if_neg (by simp), if_pos rfl, if_pos hs, hn]
  | slash hc hr hs =>
    subst hc
    rw [front_plain (by decide) (fun _ => hr), if_neg (by simp [opensNumber]; decide),
      if_neg (by decide), if_neg (by simp), if_pos rfl, if_neg (by simp [hs])]
  | punct ho hn =>
    obtain ⟨hc, hs, hh, hslash⟩ := isPlain_of_punctuator hn
    rw [front_plain hc (fun h => absurd h hslash), if_neg (by simp [ho]), if_neg (by simp [hs]),
      if_neg (by simp [hh]), if_neg hslash, hn]
    rfl

theorem front_eq_ok : ctx.front c r = .ok (f, n) ↔ Reads ctx c r f n := by
  refine ⟨fun h => ?_, front_of_reads⟩
  have := settles_front ctx c r
  rwa [h] at this

theorem front_of_refuses (h : Refuses ctx c r e) : ctx.front c r = .error e := by
  cases h with
  | comment hc hr hnone =>
    subst hc hr
    rw [front.eq_2, hnone]
    rfl
  | resume hc hb hnone =>
    subst hc
    rw [front_closeBrace, if_pos hb]
    exact templateFront_eq_error.2 ⟨hnone, rfl⟩
  | template hc hnone =>
    subst hc
    exact templateFront_eq_error.2 ⟨hnone, rfl⟩
  | string hc hnone => rw [front_string hc, hnone]
  | digit hc ho hnone =>
    rw [front_plain hc (by rintro rfl; exact absurd ho (by simp [opensNumber]; decide)),
      if_pos ho, hnone]
  | regex hc hr hs hnone =>
    subst hc
    rw [front_plain (by decide) (fun _ => hr), if_neg (by simp [opensNumber]; decide),
      if_neg (by decide), if_neg (by simp), if_pos rfl, if_pos hs, hnone]
  | character hc ho hs hh hslash hnone =>
    rw [front_plain hc (fun h => absurd h hslash), if_neg (by simp [ho]), if_neg (by simp [hs]),
      if_neg (by simpa using hh), if_neg hslash, hnone]

theorem front_eq_error : ctx.front c r = .error e ↔ Refuses ctx c r e := by
  refine ⟨fun h => ?_, front_of_refuses⟩
  have := settles_front ctx c r
  rwa [h] at this

/-- a lexeme does not reach behind the end of the text -/
theorem Reads.le (h : Reads ctx c r f n) : n ≤ r.length := by
  cases h with
  | blanks hc => exact runLength_le _ _
  | terminator hc =>
    split
    · rename_i hr
      simp only [Bool.and_eq_true, decide_eq_true_eq, List.head?_eq_some_iff] at hr
      obtain ⟨-, r', rfl⟩ := hr
      simp
    · omega
  | line hc hr =>
    subst hr
    have := runLength_le (fun c => !c.isLineTerminator) ‹List CodePoint›
    simp only [lineLength, List.length_cons]
    omega
  | comment hc hr hn =>
    subst hr
    have := (commentLength?_spec hn).2.1
    simp only [List.length_cons]
    omega
  | bracket hk => omega
  | closeBrace hc hb => omega
  | resume hc hb hn => exact (templateLength?_spec hn).2.1
  | template hc hn => exact (templateLength?_spec hn).2.1
  | string hc hn => exact (stringLength?_spec (by rcases hc with rfl | rfl <;> decide) hn).2.1
  | number hc ho hn =>
    have := numberLength_le (c :: r)
    rw [hn, List.length_cons] at this
    omega
  | word hc hd hs => exact runLength_le _ _
  | hidden hc hr => exact runLength_le _ _
  | regex hc hr hs hn => exact (regexLength?_spec hn).2.1
  | slash hc hr hs =>
    cases r with
    | nil => simp
    | cons d r => simp only [List.length_cons]; split <;> omega
  | punct ho hn =>
    have := (punctuatorLength?_eq_some hn).2.1
    rw [List.length_cons] at this
    omega

end Relocation.Token.Context
