import Relocation.Tree.Printer
import Relocation.Proofs.Legal

/-!
# Neighbours in the canonical layout

A piece may attach to the one before it.  If it does because of what it is itself, it begins with
one of a few characters (`attached`), and none of them goes on with a token.  Behind the pieces that
attach to whatever comes next, a few neighbours have to be ruled out (`Word.Joins`); then the word
before stays apart and a name `module` stays a name (`apart_of_joins`).
-/

namespace Relocation

namespace Token.Context

open Lexical

variable {ctx : Context} {c : CodePoint} {r : Text} {kind : Kind} {n : Nat}

/-! ## what the first character tells -/

theorem mem_of_bracketKind? (h : bracketKind? c = some kind) :
    c ∈ [.char '(', .char ')', .char '[', .char ']', .char '\x7b'] := by
  unfold bracketKind? at h
  grind

/-- the characters that begin a bracket, a literal other than a number, a comment or a hidden
name -/
def signs : List CodePoint :=
  [.char '(', .char ')', .char '[', .char ']', .char '\x7b', .char '\x7d', .char '\x60', .char '"',
    .char '\'', .char '/', .char '#']

/-- any other character begins a number, a word or a punctuator -/
theorem Reads.cases_of_not_sign (h : Reads ctx c r (.token kind) n) (hc : c ∉ signs) :
    kind = .number ∧ opensNumber c r = true ∨ c.isDigitValued = false ∧ isNameStart c = true ∨
      kind = .punct ∧ opensNumber c r = false := by
  generalize hf : Front.token kind = f at h
  cases h with
  | blanks => cases hf
  | terminator => cases hf
  | line => cases hf
  | comment => cases hf
  | bracket hk => exact absurd (List.mem_append_left [_, _, _, _, _, _] (mem_of_bracketKind? hk)) hc
  | closeBrace hb => exact absurd (by simp [signs, hb]) hc
  | resume hb => exact absurd (by simp [signs, hb]) hc
  | template hb => exact absurd (by simp [signs, hb]) hc
  | string hq => exact absurd (by rcases hq with rfl | rfl <;> simp [signs]) hc
  | number _ ho => exact .inl ⟨Front.token.inj hf, ho⟩
  | word _ hd hw => exact .inr (.inl ⟨hd, hw⟩)
  | hidden hb => exact absurd (by simp [signs, hb]) hc
  | regex hb => exact absurd (by simp [signs, hb]) hc
  | slash hb => exact absurd (by simp [signs, hb]) hc
  | punct ho => exact .inr (.inr ⟨Front.token.inj hf, ho⟩)

theorem Reads.number_of_digit (h : Reads ctx c r (.token kind) n) (hc : c.isDigitValued = true) :
    kind = .number := by
  have hsigns : ∀ d ∈ signs, CodePoint.isDigitValued d = false := by decide
  rcases h.cases_of_not_sign fun hmem => by
    simp [hsigns c hmem] at hc with ⟨hk, -⟩ | ⟨hd, -⟩ | ⟨-, ho⟩
  · exact hk
  · exact absurd hc (by simp [hd])
  · simp [opensNumber, hc] at ho

/-- a character that begins no name, no literal and no bracket begins a punctuator, or the fraction
of a number -/
theorem Reads.punct_of_plain (h : Reads ctx c r (.token kind) n) (hc : c ∉ signs)
    (hs : isNameStart c = false) : kind = .number ∧ opensNumber c r = true ∨ kind = .punct := by
  rcases h.cases_of_not_sign hc with hnumber | ⟨-, hw⟩ | ⟨hk, -⟩
  · exact .inl hnumber
  · exact absurd hw (by simp [hs])
  · exact .inr hk

theorem Reads.front_unique {f f' : Front} {m : Nat} (h : Reads ctx c r f n)
    (h' : Reads ctx c r f' m) : f = f' := by
  have := (front_of_reads h).symm.trans (front_of_reads h')
  simp only [Except.ok.injEq, Prod.mk.injEq] at this
  exact this.1

/-- a number is as long as what is read of it -/
theorem numberLength_of_readable {t : Text} (h : Readable .number t) :
    numberLength t = t.length := by
  obtain ⟨ctx, c, t, rest, rfl, hr⟩ := h
  have hlen : numberLength (c :: t ++ rest) = (c :: t).length := hr.place.2.1
  rw [← hlen, numberLength_of_le (Nat.le_of_eq hlen)]

/-- looking ahead for a brace stops at every token but the brace -/
theorem Reads.openBrace_of_leadsToBrace (h : Reads ctx c r (.token kind) n)
    (hl : Lexical.leadsToBrace false (c :: r) = true) : kind = .openBrace := by
  by_cases hc : c ∈ [.char ' ', .char '\t', .char '\x7b', .char '/']
  · simp only [List.mem_cons, List.not_mem_nil, or_false] at hc
    rcases hc with rfl | rfl | rfl | rfl
    · cases h.front_unique (.blanks (by decide))
    · cases h.front_unique (.blanks (by decide))
    · cases h.front_unique (.bracket rfl)
      rfl
    · -- a slash that begins no comment
      have hr : opensComment r = true := by
        cases r with
        | nil => cases hl
        | cons d r =>
          by_cases hd : d = .char '*'
          · simp [opensComment, hd]
          · rw [leadsToBrace.eq_5 _ _ (fun r' _ he => hd (List.cons.inj he).1)] at hl
            simp at hl
      generalize hf : Front.token kind = f at h
      cases h with
      | blanks => cases hf
      | terminator => cases hf
      | line => cases hf
      | comment => cases hf
      | bracket hk => cases hk
      | closeBrace hb => cases hb
      | resume hb => cases hb
      | template hb => cases hb
      | string hq => rcases hq with hq | hq <;> cases hq
      | number _ ho => exact absurd ho (by simp [opensNumber]; decide)
      | word _ _ hw => exact absurd hw (by decide)
      | hidden hb => cases hb
      | regex _ ho => exact absurd hr (by simp [ho])
      | slash _ ho => exact absurd hr (by simp [ho])
      | punct _ hp => exact absurd rfl (isPlain_of_punctuator hp).2.2.2
  · rw [leadsToBrace_stops hc] at hl
    cases hl

end Token.Context

/-! ## which pieces attach -/

namespace Word

/-- neighbours of one line that would run into each other; `member` says that a member dot comes
before the first -/
def clashes (member : Bool) (w w' : Word) : Bool :=
  match w.kind, w'.kind with
  | .punct, .number =>
    (w.text = Text.ofString "." || w.text = Text.ofString "?.") &&
      w'.text.head?.any (·.isDigitValued)
  | .punct, .punct =>
    (w.text = Text.ofString "!" && w'.text.head? = some (.char '=')) ||
      (w.text = Text.ofString "?" &&
        (w'.text = Text.ofString "." || w'.text = Text.ofString "?.")) ||
      (w.text = Text.ofString "." && w'.text.head? = some (.char '.'))
  | .name, .openBrace => w.text = Text.ofString "module" && !member
  | _, _ => false

/-- the words may be neighbours -/
def Joins (member : Bool) (w w' : Word) : Prop :=
  (w.kind = .module → w'.kind = .openBrace ∧ w'.newline = false) ∧
    (w'.newline = false → w.clashes member w' = false)

end Word

namespace Token.Kind

/-- how a token of the kind is printed -/
def pieceKind : Token.Kind → Piece.Kind
  | .name | .module => .name
  | .number => .number
  | .string => .string
  | .regex => .regex
  | .punct => .punct
  | .openParen | .openSquare | .openBrace => .opener
  | .closeParen | .closeSquare | .closeBrace => .closer
  | .template => .template
  | .templateHead => .templateOpen
  | .templateMiddle => .templateMiddle
  | .templateTail => .templateClose

end Token.Kind

namespace Piece

/-- the piece is the word in print; the colon of a conditional is printed as a piece of its own
kind -/
structure Prints (p : Piece) (w : Word) : Prop where
  text : p.text = w.text
  newline : p.newline = w.newline
  kind : p.kind = w.kind.pieceKind ∨ p.kind = .plain ∧ w.kind = .punct ∧ w.text = Text.ofString ":"

/-- does the piece attach to whatever comes next? -/
def leans (p : Piece) : Bool :=
  ((p.kind = .punct || p.kind = .opener) && attachesForward.contains p.text) ||
    p.kind = .templateOpen ||
      p.kind = .templateMiddle

/-- the characters that attach to any piece of a line -/
def closers : List CodePoint :=
  [.char '\x7d', .char ')', .char ']', .char ',', .char ';', .char ':', .char '?']

/-- the characters that a piece may begin with if it attaches to `p` because of what it is itself -/
def attachable (p : Piece) : List CodePoint :=
  closers ++ (if p.kind = .number then [] else [.char '.']) ++
    (if p.endsOperand then [.char '+', .char '-', .char '(', .char '['] else []) ++
      (if p.isName then [.char '\x60'] else [])

variable {p q : Piece} {w w' : Word}

theorem attached (hq : q.Prints w') (hs : Token.Shaped w'.kind w'.text) (h : p.spaced q = false)
    (hp : p.leans = false) : ∃ c t, q.text = c :: t ∧ c ∈ p.attachable ∧
      (c = .char '.' ∨ c = .char '?' → w'.kind = .punct ∧
        (w'.text = Text.ofString "." ∨ w'.text = Text.ofString "?.")) := by
  obtain ⟨htext, -, hkind⟩ := hq
  simp only [leans, Bool.or_eq_false_iff, decide_eq_false_iff_not] at hp
  rw [spaced, if_neg (by rw [hp.1.1]; decide), if_neg (by simp [hp.1.2, hp.2])] at h
  obtain ⟨kind, text, newline⟩ := w'
  obtain ⟨qkind, qtext, qnewline, qdepth⟩ := q
  simp only at htext hkind hs h
  subst qtext
  rcases hkind with rfl | ⟨rfl, -, -⟩
  · cases kind with
    | name => cases h
    | number => cases h
    | string => cases h
    | regex => cases h
    | module => cases h
    | punct =>
      simp only [Token.Kind.pieceKind] at h
      split at h
      · rename_i hmem
        have hmem : text = Text.ofString "," ∨ text = Text.ofString ";" ∨ text = Text.ofString ":" ∨
            text = Text.ofString "?." := by simpa [attachesBackward] using hmem
        rcases hmem with rfl | rfl | rfl | rfl <;> simp [attachable, closers, Text.ofString]
      split at h
      · rename_i hpoint
        subst hpoint
        have : p.kind ≠ .number := by simpa using h
        simp [attachable, this, Text.ofString]
      split at h
      · rename_i htwo
        have hend : p.endsOperand = true := by simpa using h
        simp only [Bool.or_eq_true, decide_eq_true_eq] at htwo
        rcases htwo with rfl | rfl <;> simp [attachable, hend, Text.ofString]
      · cases h
    | openParen =>
      obtain rfl : text = _ := hs
      have hend : p.endsOperand = true := by simpa [Token.Kind.pieceKind, Text.ofString] using h
      simp [attachable, hend, Text.ofString]
    | openSquare =>
      obtain rfl : text = _ := hs
      have hend : p.endsOperand = true := by simpa [Token.Kind.pieceKind, Text.ofString] using h
      simp [attachable, hend, Text.ofString]
    | openBrace =>
      obtain rfl : text = _ := hs
      simp [Token.Kind.pieceKind, Text.ofString] at h
    | closeParen =>
      obtain rfl : text = _ := hs
      simp [attachable, closers, Text.ofString]
    | closeSquare =>
      obtain rfl : text = _ := hs
      simp [attachable, closers, Text.ofString]
    | closeBrace =>
      obtain rfl : text = _ := hs
      simp [attachable, closers, Text.ofString]
    | template =>
      obtain ⟨t, rfl⟩ := hs
      have hname : p.isName = true := by simpa [Token.Kind.pieceKind] using h
      simp [attachable, hname, Text.ofString]
    | templateHead =>
      obtain ⟨t, rfl⟩ := hs
      have hname : p.isName = true := by simpa [Token.Kind.pieceKind] using h
      simp [attachable, hname, Text.ofString]
    | templateMiddle =>
      obtain ⟨t, rfl⟩ := hs
      simp [attachable, closers, Text.ofString]
    | templateTail =>
      obtain ⟨t, rfl⟩ := hs
      simp [attachable, closers, Text.ofString]
  · cases h

/-- what stands right behind a piece, if the next one does not attach because `p` leans to it -/
theorem head_behind (hq : q.Prints w') (hs : Token.Shaped w'.kind w'.text) (hp : p.leans = false)
    (rest : Text) :
    ∃ c ∈ .char ' ' :: .char '\n' :: p.attachable,
    (p.separator q ++ (q.text ++ rest)).head? = some c ∧
      (c = .char '.' ∨ c = .char '?' → q.newline = false ∧ w'.kind = .punct ∧
        (w'.text = Text.ofString "." ∨ w'.text = Text.ofString "?.")) := by
  unfold separator
  split
  · exact ⟨.char '\n', by simp, rfl, by simp⟩
  split
  · exact ⟨.char ' ', by simp, rfl, by simp⟩
  · obtain ⟨c, t, hc, hmem, hpoint⟩ := attached hq hs (by simpa using ‹¬p.spaced q = true›) hp
    exact ⟨c, by simp [hmem], by simp [hc], fun h => ⟨by simpa using ‹¬q.newline = true›, hpoint h⟩⟩

/-! ## neighbours that stay apart -/

open Lexical Token.Context

variable {ctx ctx' : Token.Context} {c : CodePoint} {t rest : Text}

theorem separator_eq_nil (hp : p.leans = true) (hn : q.newline = false) : p.separator q = [] := by
  rw [separator, if_neg (by simp [hn]), spaced]
  simp only [leans, Bool.or_eq_true, decide_eq_true_eq] at hp
  rcases hp with (hp | hp) | hp
  · rw [if_pos hp]; rfl
  · simp [hp]
  · simp [hp]

theorem Prints.kind_eq (hp : p.Prints w) (hk : w.kind ≠ .punct) : p.kind = w.kind.pieceKind :=
  hp.kind.resolve_right fun h => hk h.2.1

/-- a name ends before everything that may attach to it -/
theorem stops_isNamePart (hp : p.Prints w) (hk : w.kind = .name ∨ w.kind = .module)
    (hq : q.Prints w') (hs : Token.Shaped w'.kind w'.text) :
    Stops isNamePart (p.separator q ++ (q.text ++ rest)) := by
  have hkind : p.kind = .name := by
    rcases hk with hk | hk <;> rw [hp.kind_eq (by simp [hk]), hk] <;> rfl
  obtain ⟨d, hd, hhead, -⟩ := head_behind hq hs (p := p) (by simp [leans, hkind]) rest
  intro d' hd'
  obtain rfl := Option.some.inj (hhead.symm.trans hd')
  have hall :
      ∀ d ∈ .char ' ' :: .char '\n' ::
      (closers ++ [.char '.', .char '+', .char '-', .char '(', .char '[',
        .char '\x60']), isNamePart d = false := by decide
  refine hall d ?_
  simp only [attachable, List.mem_cons, List.mem_append] at hd ⊢
  grind

/-- so does a regular expression -/
theorem stops_isFlag (hp : p.Prints w) (hk : w.kind = .regex) (hq : q.Prints w')
    (hs : Token.Shaped w'.kind w'.text) : Stops isFlag (p.separator q ++ (q.text ++ rest)) := by
  have hkind : p.kind = .regex := by rw [hp.kind_eq (by simp [hk]), hk]; rfl
  obtain ⟨d, hd, hhead, -⟩ := head_behind hq hs (p := p) (by simp [leans, hkind]) rest
  intro d' hd'
  obtain rfl := Option.some.inj (hhead.symm.trans hd')
  have hall : ∀ d ∈ .char ' ' :: .char '\n' :: (closers ++ [.char '.']), isFlag d = false := by
    decide
  refine hall d ?_
  simpa [attachable, hkind, endsOperand, isName] using hd

/-- and a number, to which less may attach -/
theorem bounded_behind (hp : p.Prints w) (hk : w.kind = .number) (hq : q.Prints w')
    (hs : Token.Shaped w'.kind w'.text) : Bounded (p.separator q ++ (q.text ++ rest)) := by
  have hkind : p.kind = .number := by rw [hp.kind_eq (by simp [hk]), hk]; rfl
  obtain ⟨d, hd, hhead, -⟩ := head_behind hq hs (p := p) (by simp [leans, hkind]) rest
  intro d' hd'
  obtain rfl := Option.some.inj (hhead.symm.trans hd')
  have hall : ∀ d ∈ .char ' ' :: .char '\n' :: closers, d ∈ boundaries := by decide
  refine hall d ?_
  simpa [attachable, hkind, endsOperand, isName] using hd

theorem opensPunctuator_append {a : Text} {d : CodePoint} : opensPunctuator (a ++ [d]) = true ↔
    ∃ b ∈ punctuators, a.isPrefixOf b = true ∧ (b.drop a.length).head? = some d := by
  simp only [opensPunctuator, List.any_eq_true, List.isPrefixOf_iff_prefix]
  refine exists_congr fun b => and_congr_right fun _ => ⟨?_, ?_⟩
  · rintro ⟨s, rfl⟩
    exact ⟨⟨d :: s, by simp⟩, by simp⟩
  · rintro ⟨⟨s, rfl⟩, hd⟩
    rw [List.drop_left] at hd
    obtain ⟨s, rfl⟩ := List.head?_eq_some_iff.1 hd
    exact ⟨s, by simp⟩

/-- a punctuator that leans to nothing, and what may attach to it -/
theorem opensPunctuator_of_not_leans {a : Text} (ha : a ∈ punctuators) (hf : a ∉ attachesForward)
    {d : CodePoint} (hd : d ∈ .char ' ' :: .char '\n' :: (closers ++ [.char '.']))
    (h : opensPunctuator (a ++ [d]) = true) : a = Text.ofString "?" ∧
    (d = .char '.' ∨ d = .char '?') := by
  have hall : ∀ a ∈ punctuators, a ∉ attachesForward → ∀ b ∈ punctuators, a.isPrefixOf b = true →
      ∀ d ∈ .char ' ' :: .char '\n' :: (closers ++ [.char '.']), (b.drop a.length).head? = some d →
        a = Text.ofString "?" ∧ (d = .char '.' ∨ d = .char '?') := by decide +kernel
  obtain ⟨b, hb, hpre, hhead⟩ := opensPunctuator_append.1 h
  exact hall a ha hf b hb hpre d hd hhead

/-- punctuators that no longer one begins with -/
theorem opensPunctuator_of_longest {a : Text}
    (ha : ∀ b ∈ punctuators, a.isPrefixOf b = true → b = a) (d : CodePoint) :
    opensPunctuator (a ++ [d]) = false := by
  by_contra h
  obtain ⟨b, hb, hpre, hhead⟩ := opensPunctuator_append.1 (by simpa using h)
  rw [ha b hb hpre, List.drop_length] at hhead
  cases hhead

theorem opensPunctuator_not {d : CodePoint} (hd : d ≠ .char '=') :
    opensPunctuator (Text.ofString "!" ++ [d]) = false := by
  have hall : ∀ b ∈ punctuators, (Text.ofString "!").isPrefixOf b = true → ∀ d ∈ (b.drop 1).head?,
      d = .char '=' := by
    decide
  by_contra h
  obtain ⟨b, hb, hpre, hhead⟩ := opensPunctuator_append.1 (by simpa using h)
  exact hd (hall b hb hpre d hhead)

theorem opensPunctuator_break (a : Text) : opensPunctuator (a ++ [.char '\n']) = false := by
  have hall : ∀ b ∈ punctuators, .char '\n' ∉ b := by decide
  by_contra h
  obtain ⟨b, hb, -, hhead⟩ := opensPunctuator_append.1 (by simpa using h)
  exact hall b hb (List.mem_of_mem_drop (List.mem_of_mem_head? hhead))

theorem mem_punctuators {a : Text} (h : Token.Readable .punct a)
    (hslash : a.head? ≠ some (.char '/')) : a ∈ punctuators := by
  obtain ⟨ctx, c, t, rest, rfl, hr⟩ := h
  have hp : Apart .punct (c :: t) rest := hr.place.2.1
  rw [Apart, if_neg hslash] at hp
  have := (punctuatorLength?_eq_some hp.1).2.2
  rwa [List.take_left] at this

theorem attachable_of_punct (hp : p.Prints w) (hk : w.kind = .punct) : p.attachable = closers ++
    [.char '.'] := by
  rcases hp.kind with hkind | ⟨hkind, -⟩
  · rw [hk] at hkind
    simp [attachable, hkind, Token.Kind.pieceKind, endsOperand, isName]
  · simp [attachable, hkind, endsOperand, isName]

/-- a punctuator leans to what follows if it is one that attaches to it -/
theorem leans_iff (hp : p.Prints w) (hk : w.kind = .punct) :
    p.leans = true ↔ w.text ∈ attachesForward := by
  rcases hp.kind with hkind | ⟨hkind, -, hcolon⟩
  · rw [hk] at hkind
    simp [leans, hkind, Token.Kind.pieceKind, hp.text]
  · have hplain : Text.ofString ":" ∉ attachesForward := by decide
    simp [leans, hkind, hcolon, hplain]

/-- a punctuator that leans to nothing stays apart from what attaches to it -/
theorem apart_of_not_leans (hp : p.Prints w) (hk : w.kind = .punct)
    (hw : Token.Readable .punct w.text) (hq : q.Prints w') (hs : Token.Shaped w'.kind w'.text)
    (hl : p.leans = false) {member : Bool} (hj : w'.newline = false → w.clashes member w' = false) :
    Apart .punct w.text (p.separator q ++ (q.text ++ rest)) := by
  have hoperand := attachable_of_punct hp hk
  obtain ⟨d, hd, hhead, hpoint⟩ := head_behind hq hs hl rest
  rw [hoperand] at hd
  by_cases hslash : w.text.head? = some (.char '/')
  · rw [Apart, if_pos hslash]
    intro _
    have hall : ∀ d ∈ .char ' ' :: .char '\n' :: (closers ++ [.char '.']),
        d ≠ .char '/' ∧ d ≠ .char '*' ∧ d ≠ .char '=' := by decide
    simp [opensComment, hhead, hall d hd]
  · have hmem := mem_punctuators hw hslash
    have hforward : w.text ∉ attachesForward := by rw [← leans_iff hp hk, hl]; decide
    rw [Apart, if_neg hslash]
    refine ⟨punctuatorLength?_append hmem (fun d' hd' => ?_) (fun he => ?_), fun he => ?_⟩
    · obtain rfl := Option.some.inj (hhead.symm.trans hd')
      by_contra hopens
      obtain ⟨hquestion, hchar⟩ :=
        opensPunctuator_of_not_leans hmem hforward hd (by simpa using hopens)
      obtain ⟨hnewline, hkind, htext⟩ := hpoint hchar
      have := hj (by rw [← hq.newline, hnewline])
      rcases htext with htext | htext <;> simp [Word.clashes, hk, hkind, hquestion, htext] at this
    · exact absurd (by rw [he]; decide) hforward
    · exact absurd (by rw [he]; decide) hforward

/-- one that leans to the next piece stays apart from it too -/
theorem apart_of_leans (hp : p.Prints w) (hk : w.kind = .punct) (hw : Token.Readable .punct w.text)
    (hq : q.Prints w') (hl : p.leans = true) {member : Bool}
    (hj : w'.newline = false → w.clashes member w' = false)
    (ht : w'.text = c :: t) (hr : ctx'.Reads c (t ++ rest) (.token w'.kind) t.length) :
    Apart .punct w.text (p.separator q ++ (q.text ++ rest)) := by
  have hforward := (leans_iff hp hk).1 hl
  have hnoslash : ∀ a ∈ attachesForward, a.head? ≠ some (.char '/') := by decide
  have hslash := hnoslash _ hforward
  have hmem := mem_punctuators hw hslash
  have hfive : ∀ a ∈ punctuators, a ∈ attachesForward → a = Text.ofString "." ∨
      a = Text.ofString "?." ∨ a = Text.ofString "!" ∨ a = Text.ofString "..." ∨
      a = Text.ofString "~" := by decide
  rw [Apart, if_neg hslash]
  by_cases hnewline : q.newline = true
  · have hhead : (p.separator q ++ (q.text ++ rest)).head? = some (.char '\n') := by
      rw [separator, if_pos hnewline]
      rfl
    refine ⟨punctuatorLength?_append hmem (fun d hd => ?_) (fun _ d hd => ?_), fun _ => ?_⟩
    · obtain rfl := Option.some.inj (hhead.symm.trans hd)
      exact opensPunctuator_break _
    · obtain rfl := Option.some.inj (hhead.symm.trans hd)
      rfl
    · rw [hhead]
      rfl
  · have hnewline : q.newline = false := by simpa using hnewline
    have hclash := hj (by rw [← hq.newline, hnewline])
    rw [separator_eq_nil hl hnewline, hq.text, ht]
    have hdigit : w.text = Text.ofString "." ∨ w.text = Text.ofString "?." →
        c.isDigitValued = false := by
      intro he
      by_contra hd
      have hnumber := hr.number_of_digit (by simpa using hd)
      simp only [Bool.not_eq_false] at hd
      rcases he with he | he <;> simp [Word.clashes, hk, hnumber, he, ht, hd] at hclash
    rcases hfive _ hmem hforward with he | he | he | he
    · refine ⟨?_, fun _ => by simpa using hdigit (.inl he)⟩
      rw [he]
      refine punctuatorLength?_point fun htwo => ?_
      obtain ⟨rfl, r, hpoint⟩ : c = .char '.' ∧ ∃ r, t ++ rest = .char '.' :: r := by
        cases hrest : t ++ rest with
        | nil => simp [hrest, Text.ofString] at htwo
        | cons d r =>
          have : c = .char '.' ∧ d = .char '.' := by simpa [hrest, Text.ofString] using htwo
          exact ⟨this.1, r, by rw [this.2]⟩
      rcases hr.punct_of_plain (by decide) (by decide) with ⟨-, ho⟩ | hpunct
      · rw [hpoint] at ho
        exact absurd ho (by simp [opensNumber]; decide)
      · simp [Word.clashes, hk, hpunct, he, ht] at hclash
    · refine ⟨punctuatorLength?_append hmem (fun d _ => ?_) (fun _ d hd => ?_), fun h =>
        absurd h (by rw [he]; decide)⟩
      · rw [he]
        exact opensPunctuator_of_longest (by decide) d
      · obtain rfl := Option.some.inj hd
        exact hdigit (.inr he)
    · refine ⟨punctuatorLength?_append hmem (fun d hd => ?_) (fun h =>
        absurd h (by rw [he]; decide)), fun h => absurd h (by rw [he]; decide)⟩
      obtain rfl := Option.some.inj hd
      rw [he]
      refine opensPunctuator_not fun hequals => ?_
      subst hequals
      rcases hr.punct_of_plain (by decide) (by decide) with ⟨-, ho⟩ | hpunct
      · exact absurd ho (by simp [opensNumber]; decide)
      · simp [Word.clashes, hk, hpunct, he, ht] at hclash
    · -- no punctuator goes on from these two
      have hlongest : (∀ b ∈ punctuators, w.text.isPrefixOf b = true → b = w.text) ∧
          w.text ≠ Text.ofString "?." ∧ w.text ≠ Text.ofString "." := by
        rcases he with he | he <;> rw [he] <;> decide
      exact ⟨punctuatorLength?_append hmem (fun d _ => opensPunctuator_of_longest hlongest.1 d)
        fun h => absurd h hlongest.2.1, fun h => absurd h hlongest.2.2⟩

/-- a word stays apart from whatever comes behind it in the layout, if it does as a punctuator -/
theorem apart_of_readable (hp : p.Prints w) (hw : Token.Readable w.kind w.text)
    (hq : q.Prints w') (hs : Token.Shaped w'.kind w'.text)
    (hpunct : w.kind = .punct → Apart .punct w.text (p.separator q ++ (q.text ++ rest))) :
    Apart w.kind w.text (p.separator q ++ (q.text ++ rest)) := by
  generalize hk : w.kind = kind at hw hpunct
  cases kind with
  | name => exact stops_isNamePart hp (.inl hk) hq hs
  | module => exact stops_isNamePart hp (.inr hk) hq hs
  | number =>
    rw [Apart, numberLength_append_of_bounded (bounded_behind hp hk hq hs),
      numberLength_of_readable hw]
  | regex => exact stops_isFlag hp hk hq hs
  | punct => exact hpunct rfl
  | _ => trivial

/-- what the canonical layout puts behind a word does not run into it, and neither makes a keyword
of a name nor a name of a keyword -/
theorem apart_of_joins (hp : p.Prints w) (hw : Token.Readable w.kind w.text) (hq : q.Prints w')
    (hj : w.Joins ctx.namesMember w') (ht : w'.text = c :: t)
    (hr : ctx'.Reads c (t ++ rest) (.token w'.kind) t.length) :
    Apart w.kind w.text (p.separator q ++ (q.text ++ rest)) ∧
      Foresees ctx w.kind w.text (p.separator q ++ (q.text ++ rest)) := by
  have hs : Token.Shaped w'.kind w'.text := by rw [ht]; exact hr.shaped
  constructor
  · refine apart_of_readable hp hw hq hs fun hk => ?_
    cases hl : p.leans with
    | false => exact apart_of_not_leans hp hk (hk ▸ hw) hq hs hl hj.2
    | true => exact apart_of_leans hp hk (hk ▸ hw) hq hl hj.2 ht hr
  · refine ⟨fun hk => ?_, fun hk htext hlead => ?_⟩
    · -- the brace of a block stands behind one blank
      obtain ⟨hbrace, hnewline⟩ := hj.1 hk
      rw [hbrace] at hr hs
      have hkind : p.kind = .name := by rw [hp.kind_eq (by simp [hk]), hk]; rfl
      have hqkind : q.kind = .opener := by rw [hq.kind_eq (by simp [hbrace]), hbrace]; rfl
      have hqtext : q.text = Text.ofString "\x7b" := hq.text.trans hs
      have : p.separator q = [.char ' '] := by
        rw [separator, if_neg (by simp [hq.newline, hnewline]),
          if_pos (by simp [spaced, hkind, hqkind, hqtext, Text.ofString])]
      rw [this, hqtext]
      rfl
    · have hkind : p.kind = .name := by rw [hp.kind_eq (by simp [hk]), hk]; rfl
      have hsep : q.newline = false ∧ leadsToBrace false (q.text ++ rest) = true := by
        unfold separator at hlead
        split at hlead
        · cases hlead
        · refine ⟨by simpa using ‹¬q.newline = true›, ?_⟩
          split at hlead
          · simpa [leadsToBrace] using hlead
          · exact hlead
      rw [hq.text, ht] at hsep
      have hbrace := hr.openBrace_of_leadsToBrace hsep.2
      have := hj.2 (by rw [← hq.newline, hsep.1])
      simpa [Word.clashes, hk, hbrace, htext] using this

end Piece

end Relocation
