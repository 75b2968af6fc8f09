import Relocation.Token.Stream
import Relocation.Proofs.Apart

/-!
# Lexemes and the texts they are cut from

`Cuts` says of a list of lexemes that each is read at the front of its own text with the ones behind
it.  Cutting gives exactly such lists (`cuts_of_cutFrom_eq`, `cutFrom_of_cuts`).  `map_withBreaks`:
what the tokens among them are, and where line breaks come before them, can be told from the lexemes
without positions.
-/

namespace Relocation

namespace Lexeme

/-- the lexemes put together -/
def textOf (ls : List Lexeme) : Text := ls.flatMap (·.text)

@[simp] theorem textOf_nil : textOf [] = [] := rfl

@[simp] theorem textOf_cons (l : Lexeme) (ls : List Lexeme) :
    textOf (l :: ls) = l.text ++ textOf ls := rfl

@[simp] theorem textOf_append (a b : List Lexeme) : textOf (a ++ b) = textOf a ++ textOf b :=
  List.flatMap_append

/-- the lexeme is read where `rest` comes behind it -/
def Stands (l : Lexeme) (ctx : Token.Context) (rest : Text) : Prop :=
  ∃ c t, l.text = c :: t ∧ ctx.Reads c (t ++ rest) l.front t.length

/-- the lexemes are read one after the other where `rest` comes behind them -/
def Cuts (ctx : Token.Context) : List Lexeme → Text → Prop
  | [], _ => True
  | l :: ls, rest => l.Stands ctx (textOf ls ++ rest) ∧ Cuts (l.context ctx) ls rest

/-- the context behind lexemes -/
def contextAfter (ctx : Token.Context) : List Lexeme → Token.Context
  | [] => ctx
  | l :: ls => contextAfter (l.context ctx) ls

variable {ctx : Token.Context} {l : Lexeme} {ls a b : List Lexeme} {t rest : Text} {k : Nat}

theorem cuts_append : Cuts ctx (a ++ b) rest ↔ Cuts ctx a (textOf b ++ rest) ∧
    Cuts (contextAfter ctx a) b rest := by
  induction a generalizing ctx with
  | nil => simp [Cuts, contextAfter]
  | cons l a ih =>
    rw [List.cons_append, Cuts, ih, Cuts, contextAfter, textOf_append, List.append_assoc, and_assoc]

theorem cutFrom_drop (ctx : Token.Context) (k : Nat) (t : Text) :
    cutFrom ctx k t = cutFrom ctx 0 (t.drop k) := by
  induction t generalizing k with
  | nil => cases k <;> rfl
  | cons c t ih =>
    cases k with
    | zero => rfl
    | succ k => exact ih k

theorem cutFrom_of_stands (h : l.Stands ctx rest) :
    cutFrom ctx 0 (l.text ++ rest) =
      (l :: (cutFrom (l.context ctx) 0 rest).1, (cutFrom (l.context ctx) 0 rest).2) := by
  obtain ⟨front, text⟩ := l
  obtain ⟨c, t, ht, hr⟩ := h
  obtain rfl : text = c :: t := ht
  rw [List.cons_append, cutFrom, Token.Context.front_of_reads hr]
  simp only [List.take_left]
  rw [cutFrom_drop, List.drop_left]

theorem cutFrom_of_cuts (h : Cuts ctx ls []) : cutFrom ctx 0 (textOf ls) = (ls, none) := by
  induction ls generalizing ctx with
  | nil => rfl
  | cons l ls ih =>
    obtain ⟨hl, hls⟩ := h
    rw [List.append_nil] at hl
    rw [textOf_cons, cutFrom_of_stands hl, ih hls]

/-- cutting a text gives lexemes that stand one after the other at its front; it ends early only
where something is left -/
theorem cuts_of_cutFrom_eq {stopped : Option Token.Context.Refusal}
    (h : cutFrom ctx 0 t = (ls, stopped)) : ∃ rest, t = textOf ls ++ rest ∧ Cuts ctx ls rest ∧
    (stopped = none ↔ rest = []) := by
  induction ls generalizing ctx t with
  | nil =>
    cases t with
    | nil => cases h; exact ⟨[], rfl, trivial, by simp⟩
    | cons c r =>
      rw [cutFrom] at h
      split at h
      · cases h; exact ⟨c :: r, rfl, trivial, by simp⟩
      · cases h
  | cons l ls ih =>
    cases t with
    | nil => cases h
    | cons c r =>
      rw [cutFrom] at h
      split at h
      · cases h
      · rename_i front n hfront
        simp only [Prod.mk.injEq, List.cons.injEq] at h
        obtain ⟨⟨rfl, hls⟩, hstopped⟩ := h
        have hreads := Token.Context.front_eq_ok.1 hfront
        have hlen : (r.take n).length = n := List.length_take_of_le hreads.le
        rw [cutFrom_drop] at hls hstopped
        obtain ⟨rest, htext, hcuts, hrest⟩ := ih (Prod.ext hls hstopped)
        refine ⟨rest, ?_, ⟨⟨c, r.take n, rfl, ?_⟩, hcuts⟩, hrest⟩
        · rw [textOf_cons, List.append_assoc, ← htext, List.cons_append, List.take_append_drop]
        · rw [← htext, List.take_append_drop, hlen]
          exact hreads

theorem cuts_of_cutFrom (h : cutFrom ctx 0 t = (ls, none)) : textOf ls = t ∧ Cuts ctx ls [] := by
  obtain ⟨rest, rfl, hcuts, hrest⟩ := cuts_of_cutFrom_eq h
  obtain rfl := hrest.1 rfl
  exact ⟨(List.append_nil _).symm, hcuts⟩

theorem not_reads_hashbang {r : Text} {f : Token.Front} {n : Nat} :
    ¬ ctx.Reads (.char '#') (.char '!' :: r) f n := by
  intro h
  cases h with
  | blanks hc => exact absurd hc (by decide)
  | terminator hc => exact absurd hc (by decide)
  | line hc => exact absurd hc (by decide)
  | comment hc => exact absurd hc (by decide)
  | bracket hk => exact absurd hk (by simp [Token.Context.bracketKind?])
  | closeBrace hc => exact absurd hc (by decide)
  | resume hc => exact absurd hc (by decide)
  | template hc => exact absurd hc (by decide)
  | string hc => exact absurd hc (by decide)
  | number hc ho => exact absurd ho (by simp [Token.Context.opensNumber]; decide)
  | word hc hd hs => exact absurd hs (by decide)
  | hidden hc hh => exact absurd hh (by simp; decide)
  | regex hc => exact absurd hc (by decide)
  | slash hc => exact absurd hc (by decide)
  | punct ho hm => exact (Token.Context.isPlain_of_punctuator hm).2.2.1 rfl

/-- only the line that names an interpreter begins like one -/
theorem hashbang_of_cuts (h : Cuts ctx ls []) : hashbang (textOf ls) = [] := by
  cases ls with
  | nil => rfl
  | cons l ls =>
    obtain ⟨⟨c, t, ht, hr⟩, -⟩ := h
    have hne : ∀ r, textOf (l :: ls) ≠ .char '#' :: .char '!' :: r := by
      intro r he
      rw [textOf_cons, ht, List.cons_append] at he
      obtain ⟨rfl, htext⟩ := List.cons.inj he
      rw [List.append_nil, htext] at hr
      exact not_reads_hashbang hr
    unfold hashbang
    split
    · exact absurd ‹_› (hne _)
    · rfl

theorem cut_of_cuts (h : Cuts {} ls []) : cut (textOf ls) = (ls, none) := by
  rw [cut, hashbang_of_cuts h]
  simp [cutFrom_of_cuts h]

/-! ## words -/

end Lexeme

/-- a token without its place; `newline` says that a line break comes before it -/
structure Word where
  kind : Token.Kind
  text : Text
  newline : Bool
  deriving DecidableEq

namespace Word

/-- a token with a line break before it or not -/
def ofToken (t : Token × Bool) : Word := ⟨t.1.kind, t.1.text, t.2⟩

/-- the kind and the text -/
def face (w : Word) : Token.Kind × Text := (w.kind, w.text)

end Word

/-- the kind and the text -/
def Token.face (t : Token) : Kind × Text := (t.kind, t.text)

namespace Position

/-- does a line end in the text? -/
def endsLine (t : Text) : Bool := t.any CodePoint.isLineTerminator

theorem line_advance (p : Position) (t : Text) :
    p.line ≤ (p.advance t).line ∧ (p.line < (p.advance t).line ↔ endsLine t = true) := by
  fun_induction advance p t with
  | case1 p => simp [endsLine]
  | case2 p r ih =>
    have hline : (p.nextLine 2).line = p.line + 1 := rfl
    have hend : endsLine (.char '\r' :: .char '\n' :: r) = true := by
      simp only [endsLine, List.any_cons]
      rfl
    rw [hline] at ih
    simp only [hend, iff_true]
    omega
  | case3 p c r h ih =>
    have hend : endsLine (c :: r) = (c.isLineTerminator || endsLine r) := rfl
    rw [hend]
    cases hc : c.isLineTerminator with
    | true =>
      have hline : (p.nextLine 1).line = p.line + 1 := rfl
      rw [hc, if_pos rfl, hline] at ih
      simp only [if_true, Bool.true_or, iff_true]
      omega
    | false =>
      have hline : p.right.line = p.line := rfl
      rw [hc, if_neg (by decide), hline] at ih
      simpa using ih

theorem offset_advance (p : Position) (t : Text) : (p.advance t).offset = p.offset + t.length := by
  fun_induction advance p t with
  | case1 p => rfl
  | case2 p r ih => rw [ih]; simp only [nextLine, List.length_cons]; omega
  | case3 p c r h ih =>
    rw [ih]
    split <;> simp only [nextLine, right, List.length_cons] <;> omega

end Position

namespace Lexeme

variable {ls : List Lexeme} {p : Position}

/-- the tokens among lexemes as words.  `broken` says whether a line ended behind the token before
them; without such a token no line break counts. -/
def words (broken : Option Bool) : List Lexeme → List Word
  | [] => []
  | l :: r =>
    match l.front with
    | .gap => words (broken.map (· || Position.endsLine l.text)) r
    | .token kind => ⟨kind, l.text, broken.getD false⟩ :: words (some false) r

theorem map_withBreaks (last : Option Nat) (h : ∀ line ∈ last, line ≤ p.line) :
    (Token.withBreaks last (tokens p ls)).map Word.ofToken =
      words (last.map fun line => decide (line < p.line)) ls := by
  induction ls generalizing last p with
  | nil => rfl
  | cons l r ih =>
    obtain ⟨hle, hlt⟩ := Position.line_advance p l.text
    unfold tokens words
    cases hf : l.front with
    | gap =>
      simp only
      rw [ih last fun line hl => Nat.le_trans (h line hl) hle]
      congr 1
      cases last with
      | none => rfl
      | some line =>
        have hp := h line rfl
        simp only [Option.map_some, Option.some.injEq]
        rw [Bool.eq_iff_iff, Bool.or_eq_true, decide_eq_true_eq, decide_eq_true_eq, ← hlt]
        omega
    | token kind =>
      simp only [Token.withBreaks, List.map_cons]
      rw [ih (some (p.advance l.text).line) (by simp)]
      cases last <;> simp [Word.ofToken]

/-- the words of lexemes are their tokens, wherever the lexemes begin -/
theorem map_face_words (broken : Option Bool) (p : Position) (ls : List Lexeme) :
    (words broken ls).map Word.face = (tokens p ls).map Token.face := by
  induction ls generalizing broken p with
  | nil => rfl
  | cons l ls ih =>
    rw [words, tokens]
    cases l.front with
    | gap => exact ih _ _
    | token kind => exact congrArg ((kind, l.text) :: ·) (ih _ _)

end Lexeme

end Relocation
