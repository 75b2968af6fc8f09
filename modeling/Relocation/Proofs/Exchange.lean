import Relocation.Proofs.Inside

/-!
# Putting a string in the place of tokens

Lexemes that begin like a name or a string can be taken out of a text and a string literal put in
their place: the tokens around are cut as before, if the lexemes leave behind what a string does
(`Lexeme.cuts_of_exchanged`).
-/

namespace Relocation

namespace Token.Context

open Lexical

/-- how the exchanged lexemes begin: with a quote, or with the word `import` -/
def openings : List CodePoint := [.char '"', .char '\'', .char 'i']

/-- the texts are the same up to a place where one goes on with an opening and the other with a
quote -/
def Exchanged (rest rest' : Text) : Prop :=
  rest = rest' ∨ ∃ front c a b, rest = front ++ c :: a ∧ rest' = front ++ .char '"' :: b ∧
    c ∈ openings

variable {ctx ctx' : Context} {c : CodePoint} {t rest rest' : Text} {kind : Kind}
  {p : CodePoint → Bool}

theorem Exchanged.append (h : Exchanged rest rest') (t : Text) :
    Exchanged (t ++ rest) (t ++ rest') := by
  rcases h with rfl | ⟨front, c, a, b, rfl, rfl, hc⟩
  · exact .inl rfl
  · exact .inr ⟨t ++ front, c, a, b, by simp, by simp, hc⟩

theorem Exchanged.head? (h : Exchanged rest rest') :
    rest.head? = rest'.head? ∨ ∃ c ∈ openings, rest.head? = some c ∧
    rest'.head? = some (.char '"') := by
  rcases h with rfl | ⟨front, c, a, b, rfl, rfl, hc⟩
  · exact .inl rfl
  · cases front with
    | nil => exact .inr ⟨c, hc, rfl, rfl⟩
    | cons d front => exact .inl rfl

theorem Exchanged.stops (h : Exchanged rest rest') (hp : p (.char '"') = false)
    (hs : Stops p rest) : Stops p rest' := by
  rcases h.head? with h | ⟨c, -, -, h⟩
  · rwa [Stops, ← h]
  · intro d hd
    rw [h] at hd
    obtain rfl := Option.some.inj hd
    exact hp

theorem numberLength_exchanged (h : Exchanged rest rest') (t : Text) :
    numberLength (t ++ rest') = numberLength (t ++ rest) := by
  rcases h with rfl | ⟨front, c, a, b, rfl, rfl, hc⟩
  · rfl
  · have hopening : ∀ c ∈ openings, c ∈ boundaries := by decide
    have hbounded : ∀ {c : CodePoint} (r : Text), c ∈ boundaries → Bounded (c :: r) := by
      intro c r hc d hd
      obtain rfl := Option.some.inj hd
      exact hc
    rw [← List.append_assoc, ← List.append_assoc,
      numberLength_append_of_bounded (hbounded b (by decide)),
      numberLength_append_of_bounded (hbounded a (hopening c hc))]

theorem punctuatorLength?_exchanged (h : Exchanged rest rest') (t : Text) :
    punctuatorLength? (t ++ rest') = punctuatorLength? (t ++ rest) := by
  rcases h with rfl | ⟨front, c, a, b, rfl, rfl, hc⟩
  · rfl
  · have hforeign : ∀ c ∈ openings, (∀ q ∈ punctuators, c ∉ q) ∧ c.isDigitValued = false := by
      decide
    rw [← List.append_assoc, ← List.append_assoc,
      punctuatorLength?_append_of_foreign (by decide) (by decide),
      punctuatorLength?_append_of_foreign (hforeign c hc).1 (hforeign c hc).2]

/-- what does not run into a token does not after the exchange -/
theorem apart_of_exchanged (h : Exchanged rest rest') (ha : Apart kind t rest) :
    Apart kind t rest' := by
  have hname : isNamePart (.char '"') = false := by decide
  have hflag : isFlag (.char '"') = false := by decide
  unfold Apart at ha ⊢
  split at ha
  · exact h.stops hname ha
  · exact h.stops hname ha
  · rwa [numberLength_exchanged h]
  · exact h.stops hflag ha
  · split at ha
    · rw [if_pos ‹_›]
      intro ht
      obtain ⟨hcomment, heq⟩ := ha ht
      rcases h.head? with h | ⟨c, -, -, h⟩
      · unfold opensComment at hcomment ⊢
        rw [← h]
        exact ⟨hcomment, heq⟩
      · simp [opensComment, h]
    · rw [if_neg ‹_›, punctuatorLength?_exchanged h]
      refine ⟨ha.1, fun ht => ?_⟩
      rcases h.head? with h | ⟨c, -, -, h⟩
      · rw [← h]
        exact ha.2 ht
      · rw [h]
        decide
  · trivial

theorem gap_of_exchanged (h : Exchanged rest rest') (hr : Reads ctx c (t ++ rest) .gap t.length) :
    Reads ctx' c (t ++ rest') .gap t.length := by
  refine hr.gap_move (h.stops (by decide)) (fun hfeed => ?_) fun hs => ?_
  · rcases h.head? with h | ⟨c, -, -, h⟩
    · exact .inl (by rw [h, hfeed])
    · rw [h] at hfeed
      cases hfeed
  · rcases h.head? with h | ⟨c, hc, h, -⟩
    · rwa [Stops, ← h]
    · have hopening : ∀ c ∈ openings, c.isLineTerminator = false := by decide
      exact absurd (hs c h) (by simp [hopening c hc])

/-! ## contexts -/

/-- the contexts read the same from now on -/
structure Like (ctx ctx' : Context) : Prop where
  braces : ctx.braces = ctx'.braces
  parens : ctx.parens = ctx'.parens
  left : ctx.left = ctx'.left

theorem Like.refl (ctx : Context) : Like ctx ctx := ⟨rfl, rfl, rfl⟩

theorem Like.after (h : Like ctx ctx') (kind : Kind) (text : Text) :
    Like (ctx.after kind text) (ctx'.after kind text) := by
  have hhead : ctx.namesHead = ctx'.namesHead := congrArg Left.head h.left
  refine ⟨?_, ?_, ?_⟩
  · have := h.braces
    cases kind <;> simp [Context.after, this]
  · have := h.parens
    cases kind with
    | openParen =>
      show ctx.namesHead :: ctx.parens = ctx'.namesHead :: ctx'.parens
      rw [hhead, this]
    | _ => simp [Context.after, this]
  · by_cases hk : kind = .closeParen
    · subst hk
      rw [left_after_closeParen, left_after_closeParen, h.parens]
    · rw [left_after hk, left_after hk]

theorem Like.admits (h : Like ctx ctx') {text : Text} (ha : ctx.Admits kind text) :
    ctx'.Admits kind text := by
  have hregex : ctx.slashOpensRegex = ctx'.slashOpensRegex := congrArg Left.regex h.left
  have hmember : ctx.namesMember = ctx'.namesMember := congrArg Left.member h.left
  have hbraces := h.braces
  cases kind <;> simp_all [Context.Admits]

end Token.Context

namespace Lexeme

open Token.Context Lexical

variable {ctx ctx' : Token.Context} {a b seg : List Lexeme}

/-- a string literal can take the place of the lexemes: they begin with an opening, and leave behind
what it does -/
structure Vacates (seg : List Lexeme) : Prop where
  opening : ∃ c t, textOf seg = c :: t ∧ c ∈ openings
  braces : ∀ ctx, (contextAfter ctx seg).braces = ctx.braces
  parens : ∀ ctx, (contextAfter ctx seg).parens = ctx.parens
  left : ∀ ctx, (contextAfter ctx seg).left = .behind false .string []

/-- a text that is a string literal, whatever comes behind it -/
def IsString (w : Text) : Prop :=
  ∃ t, w = .char '"' :: t ∧ ∀ rest, stringLength? (.char '"') (t ++ rest) = some t.length

theorem IsString.stands {w : Text} (h : IsString w) (ctx : Token.Context) (rest : Text) :
    Stands ⟨.token .string, w⟩ ctx rest := by
  obtain ⟨t, rfl, ht⟩ := h
  exact ⟨.char '"', t, rfl, .string (.inl rfl) (ht rest)⟩

/-- the lexemes with string literals in the place of some -/
inductive Refilled : List Lexeme → List Lexeme → Prop
  | nil : Refilled [] []
  | keep (l : Lexeme) {a b : List Lexeme} : Refilled a b → Refilled (l :: a) (l :: b)
  | fill {seg : List Lexeme} {w : Text} {a b : List Lexeme} : Vacates seg → IsString w →
      Refilled a b →
    Refilled (seg ++ a) (⟨.token .string, w⟩ :: b)

theorem Refilled.prepend (ls : List Lexeme) (h : Refilled a b) : Refilled (ls ++ a) (ls ++ b) := by
  induction ls with
  | nil => exact h
  | cons l ls ih => exact .keep l ih

theorem Refilled.refl (ls : List Lexeme) : Refilled ls ls := by
  simpa using Refilled.nil.prepend ls

theorem Refilled.exchanged (h : Refilled a b) : Exchanged (textOf a) (textOf b) := by
  induction h with
  | nil => exact .inl rfl
  | keep l _ ih => exact ih.append l.text
  | fill hseg hw hab ih =>
    obtain ⟨c, t, ht, hc⟩ := hseg.opening
    obtain ⟨t', rfl, -⟩ := hw
    exact .inr ⟨[], c, _, _, by rw [textOf_append, ht]; rfl, rfl, hc⟩

theorem leadsToBrace_opening {c : CodePoint} (hc : c ∈ openings) (r : Text) :
    leadsToBrace false (c :: r) = false := by
  have hopening : ∀ c ∈ openings, c ∉ [.char ' ', .char '\t', .char '\x7b', .char '/'] := by decide
  exact leadsToBrace_stops (hopening c hc)

/-- what is left of the lexemes is cut as before, and so are the literals -/
theorem Refilled.cuts_and_leadsToBrace (h : Refilled a b) : ∀ {ctx ctx' : Token.Context},
    Like ctx ctx' →
    Cuts ctx a [] →
    Cuts ctx' b [] ∧ leadsToBrace false (textOf a) = leadsToBrace false (textOf b) := by
  induction h with
  | nil =>
    intro ctx ctx' _ _
    exact ⟨trivial, rfl⟩
  | @keep l a b hab ih =>
    intro ctx ctx' hlike hcuts
    obtain ⟨hl, ha⟩ := hcuts
    obtain ⟨front, text⟩ := l
    obtain ⟨c, t, rfl, hread⟩ := hl
    rw [List.append_nil] at hread
    have hcontext : Like (context ⟨front, c :: t⟩ ctx) (context ⟨front, c :: t⟩ ctx') := by
      cases front with
      | gap => exact hlike
      | token kind => exact hlike.after kind (c :: t)
    obtain ⟨hb, hlead⟩ := ih hcontext ha
    have hread' : ctx'.Reads c (t ++ textOf b) front t.length := by
      cases front with
      | gap => exact gap_of_exchanged hab.exchanged hread
      | token kind =>
        obtain ⟨hadmits, hapart, hforesees⟩ := hread.place
        refine hread.move (hlike.admits hadmits) (apart_of_exchanged hab.exchanged hapart)
          ⟨fun hk => ?_, fun hk ht h => ?_⟩
        · rw [← hlead]
          exact hforesees.1 hk
        · rw [← show ctx.namesMember = ctx'.namesMember from congrArg Token.Left.member hlike.left]
          exact hforesees.2 hk ht (by rw [hlead]; exact h)
    refine ⟨⟨⟨c, t, rfl, by rwa [List.append_nil]⟩, hb⟩, ?_⟩
    have hcut : Cuts ctx [⟨front, c :: t⟩] (textOf a) := ⟨⟨c, t, rfl, hread⟩, trivial⟩
    have hcut' : Cuts ctx' [⟨front, c :: t⟩] (textOf b) := ⟨⟨c, t, rfl, hread'⟩, trivial⟩
    simpa using leadsToBrace_textOf hcut hcut' hlead
  | @fill seg w a b hseg hw hab ih =>
    intro ctx ctx' hlike hcuts
    have ha := (cuts_append.1 hcuts).2
    have hcontext : Like (contextAfter ctx seg) (ctx'.after .string w) :=
      ⟨(hseg.braces ctx).trans hlike.braces, (hseg.parens ctx).trans hlike.parens, hseg.left ctx⟩
    obtain ⟨hb, -⟩ := ih hcontext ha
    refine ⟨⟨hw.stands ctx' _, hb⟩, ?_⟩
    obtain ⟨c, t, ht, hc⟩ := hseg.opening
    obtain ⟨t', rfl, -⟩ := hw
    rw [textOf_append, ht, textOf_cons, List.cons_append, List.cons_append, leadsToBrace_opening hc,
      leadsToBrace_opening (by decide)]

theorem Refilled.cuts (h : Refilled a b) (hcuts : Cuts {} a []) : Cuts {} b [] :=
  (h.cuts_and_leadsToBrace (.refl {}) hcuts).1

/-! ## whole texts -/

/-- the line that names an interpreter stays where no other character goes on with it -/
theorem hashbang_append {source rest rest' : Text}
    (hsource : textOf (hashbang source) ++ rest = source)
    (hrest : Stops (fun c => !c.isLineTerminator) rest → Stops (fun c => !c.isLineTerminator) rest')
    (hplain : hashbang rest' = []) :
    hashbang (textOf (hashbang source) ++ rest') = hashbang source := by
  unfold hashbang at hsource
  split at hsource
  · rename_i r
    have hr : r.take (lineLength r) ++ rest = r := by simpa using hsource
    obtain ⟨-, hline, hstops⟩ := runLength_take (fun c => !c.isLineTerminator) r
    rw [← lineLength] at hline hstops
    obtain rfl : rest = r.drop (lineLength r) :=
      List.append_cancel_left (hr.trans (List.take_append_drop _ r).symm)
    have hlength' : lineLength (r.take (lineLength r) ++ rest') = (r.take (lineLength r)).length :=
      runLength_append.2 ⟨hline, hrest hstops⟩
    simp only [hashbang, textOf_cons, textOf_nil, List.append_nil, List.cons_append, hlength',
      List.take_left]
  · rename_i hnone
    have : hashbang source = [] := by
      unfold hashbang
      split
      · exact absurd rfl (hnone _)
      · rfl
    rw [this]
    exact hplain

/-- other lexemes can stand behind the line -/
theorem cut_behind_hashbang {source rest : Text} {ls : List Lexeme}
    (hsource : textOf (hashbang source) ++ rest = source)
    (hrest : Stops (fun c => !c.isLineTerminator) rest →
      Stops (fun c => !c.isLineTerminator) (textOf ls))
    (hcuts : Cuts {} ls []) :
    cut (textOf (hashbang source) ++ textOf ls) = (hashbang source ++ ls, none) := by
  rw [Lexeme.cut, hashbang_append hsource hrest (hashbang_of_cuts hcuts), ← textOf, cutFrom_drop,
    List.drop_left, cutFrom_of_cuts hcuts]

/-- a text with string literals in the place of some lexemes is cut throughout -/
theorem Refilled.cut {source : Text} (h : Refilled a b)
    (hsource : textOf (hashbang source) ++ textOf a = source)
    (hcuts : Cuts {} a []) :
    cut (textOf (hashbang source) ++ textOf b) = (hashbang source ++ b, none) := by
  refine cut_behind_hashbang hsource (fun hs => ?_) (h.cuts hcuts)
  rcases h.exchanged.head? with h | ⟨c, hc, h, -⟩
  · rwa [Stops, ← h]
  · -- no opening ends a line
    have hopening : ∀ c ∈ openings, c.isLineTerminator = false := by decide
    exact absurd (hs c h) (by simp [hopening c hc])

end Lexeme

end Relocation
