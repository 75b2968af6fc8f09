import Relocation.Proofs.Spelling

/-!
# Where a tree may stand

Of the context, a sequence of items depends only on what the token right before it says about the
next one (`Left`): `legal_spellsAll`.  Brackets and templates leave no trace behind them, and inside
of them everything begins anew.
-/

namespace Relocation

namespace Token

/-- can the text be read as a token of the kind somewhere? -/
def Readable (kind : Kind) (text : Text) : Prop :=
  ∃ (ctx : Context) (c : CodePoint) (t rest : Text), text = c :: t ∧
    ctx.Reads c (t ++ rest) (.token kind) t.length

theorem Readable.shaped {kind : Kind} {text : Text} (h : Readable kind text) :
    Shaped kind text := by
  obtain ⟨_, _, _, _, rfl, hr⟩ := h
  exact hr.shaped

/-- what a token says about the next one: may a slash begin a regular expression, is a name the name
of a member, does a parenthesis follow the head of a statement? -/
structure Left where
  regex : Bool
  member : Bool
  head : Bool
  deriving DecidableEq

namespace Context

/-- does a parenthesis that opens here follow the head of a statement? -/
def namesHead (ctx : Context) : Bool :=
  match ctx.previous with
  | some (.name, word) => headWords.contains word
  | _ => false

def left (ctx : Context) : Left := ⟨ctx.slashOpensRegex, ctx.namesMember, ctx.namesHead⟩

end Context

namespace Left

/-- the beginning of a text, and of everything in brackets -/
def start : Left := ⟨true, false, false⟩

/-- behind a token; `ended` says that it closed the head of a statement -/
def behind (ended : Bool) (kind : Kind) (text : Text) : Left :=
  ({ previous := some (kind, text), endedHead := ended } : Context).left

/-- what a token needs of the token before it -/
def Admits (l : Left) (kind : Kind) (text : Text) : Prop :=
  match kind with
  | .regex => l.regex = true
  | .punct => text.head? = some (.char '/') → l.regex = false
  | .module => l.member = false
  | _ => True

end Left

namespace Context

variable {ctx : Context} {kind : Kind} {text : Text}

theorem left_after (hk : kind ≠ .closeParen) :
    (ctx.after kind text).left = .behind false kind text := by
  cases kind <;> first | rfl | exact absurd rfl hk

theorem left_after_closeParen : (ctx.after .closeParen text).left =
    .behind (ctx.parens.head?.getD false) .closeParen text := rfl

/-- the context behind words -/
def afterAll (ctx : Context) : List Word → Context
  | [] => ctx
  | w :: r => (ctx.after w.kind w.text).afterAll r

theorem afterAll_append {a b : List Word} :
    ctx.afterAll (a ++ b) = (ctx.afterAll a).afterAll b := by
  induction a generalizing ctx with
  | nil => rfl
  | cons w a ih => exact ih

/-- every word can be read, and stands where it may -/
def Legal (ctx : Context) : List Word → Prop
  | [] => True
  | w :: r => Readable w.kind w.text ∧ ctx.Admits w.kind w.text ∧ Legal (ctx.after w.kind w.text) r

theorem legal_append {a b : List Word} : Legal ctx (a ++ b) ↔ Legal ctx a ∧
    Legal (ctx.afterAll a) b := by
  induction a generalizing ctx with
  | nil => simp [Legal, afterAll]
  | cons w a ih => simp only [List.cons_append, Legal, afterAll, ih, and_assoc]

end Context

end Token

namespace Lexeme

variable {ctx : Token.Context} {ls : List Lexeme} {rest : Text} {broken : Option Bool}

theorem legal_of_cuts (h : Cuts ctx ls rest) : ctx.Legal (words broken ls) := by
  induction ls generalizing ctx broken with
  | nil => trivial
  | cons l ls ih =>
    obtain ⟨⟨c, t, ht, hr⟩, hls⟩ := h
    unfold words
    unfold context at hls
    cases hf : l.front with
    | gap =>
      rw [hf] at hls
      exact ih hls
    | token kind =>
      rw [hf] at hls hr
      refine ⟨⟨ctx, c, t, _, ht, hr⟩, ?_, ih hls⟩
      simp only [ht]
      exact hr.place.1

theorem contextAfter_eq_afterAll (broken : Option Bool) (ls : List Lexeme) :
    contextAfter ctx ls = ctx.afterAll (words broken ls) := by
  induction ls generalizing ctx broken with
  | nil => rfl
  | cons l ls ih =>
    rw [contextAfter, words, context]
    cases l.front with
    | gap => exact ih _
    | token kind => exact ih _

end Lexeme

namespace Item

open Token (Left Readable)

/-- what the last token of an item says about what follows -/
def leftAfter (l : Left) : Item → Left
  | .leaf k t _ => .behind false k.tokenKind t
  | .group b _ _ _ => .behind (b = .paren && l.head) b.closeKind b.closer
  | .template q rest _ =>
    if rest.isEmpty then .behind false .template (Word.quasi true q false).text
    else .behind false .templateTail []
  | .block _ _ _ => .behind false .closeBrace Bracket.brace.closer

def leftAfterAll (l : Left) : List Item → Left
  | [] => l
  | i :: r => leftAfterAll (i.leftAfter l) r

mutual
/-- can the item stand there? -/
def Fits (l : Left) : Item → Prop
  | .leaf k t _ => k.isLeaf = true ∧ Readable k.tokenKind t ∧ l.Admits k.tokenKind t
  | .group _ items _ _ => FitsAll .start items
  | .template q rest _ =>
    Readable (Word.quasi rest.isEmpty q false).kind (Word.quasi rest.isEmpty q false).text ∧
      FitsRest rest
  | .block items _ _ => l.member = false ∧ FitsAll .start items

def FitsAll (l : Left) : List Item → Prop
  | [] => True
  | i :: r => Fits l i ∧ FitsAll (i.leftAfter l) r

def FitsRest : List (List Item × Text) → Prop
  | [] => True
  | (items, q) :: r => FitsAll .start items ∧
      Readable (Word.chunk r.isEmpty q false).kind (Word.chunk r.isEmpty q false).text ∧ FitsRest r
end

theorem fitsRest_cons {items : List Item} {q : Text} {r : List (List Item × Text)} :
    FitsRest ((items, q) :: r) ↔ FitsAll .start items ∧
    Readable (Word.chunk r.isEmpty q false).kind (Word.chunk r.isEmpty q false).text ∧
      FitsRest r := by rw [FitsRest]

theorem fitsAll_append {l : Left} {a b : List Item} :
    FitsAll l (a ++ b) ↔ FitsAll l a ∧ FitsAll (leftAfterAll l a) b := by
  induction a generalizing l with
  | nil => simp [FitsAll, leftAfterAll]
  | cons i a ih => simp only [List.cons_append, FitsAll, leftAfterAll, ih, and_assoc]

theorem leftAfterAll_append {l : Left} {a b : List Item} :
    leftAfterAll l (a ++ b) = leftAfterAll (leftAfterAll l a) b := by
  induction a generalizing l with
  | nil => rfl
  | cons i a ih => exact ih

/-! ## trees and the words that spell them -/

theorem readable_open (b : Bracket) : Readable b.openKind b.opener := by
  cases b <;> exact ⟨{}, _, [], [], rfl, .bracket rfl⟩

theorem readable_close (b : Bracket) : Readable b.closeKind b.closer := by
  cases b
  · exact ⟨{}, _, [], [], rfl, .bracket rfl⟩
  · exact ⟨{}, _, [], [], rfl, .bracket rfl⟩
  · exact ⟨{}, _, [], [], rfl, .closeBrace rfl (by simp)⟩

theorem readable_module : Readable .module (Text.ofString "module") :=
  ⟨{}, .char 'm', Text.ofString "odule", Text.ofString "\x7b", rfl,
    Token.Context.front_eq_ok.1 (by decide)⟩

/-- the words are legal where `fits` holds, and leave nothing open; `left` is what the last of them
says -/
structure Passes (ctx : Token.Context) (ws : List Word) (fits : Prop) (left : Left) : Prop where
  legal : ctx.Legal ws ↔ fits
  braces : (ctx.afterAll ws).braces = ctx.braces
  parens : (ctx.afterAll ws).parens = ctx.parens
  left : (ctx.afterAll ws).left = left

variable {ctx : Token.Context}

theorem Passes.append {a b : List Word} {fits fits' : Prop} {l l' : Left} (ha : Passes ctx a fits l)
    (hb : Passes (ctx.afterAll a) b fits' l') : Passes ctx (a ++ b) (fits ∧ fits') l' where
  legal := by rw [Token.Context.legal_append, ha.legal, hb.legal]
  braces := by rw [Token.Context.afterAll_append, hb.braces, ha.braces]
  parens := by rw [Token.Context.afterAll_append, hb.parens, ha.parens]
  left := by rw [Token.Context.afterAll_append, hb.left]

theorem passes_leaf {k : Piece.Kind} (hk : k.isLeaf = true) (t : Text) (newline : Bool) :
    Passes ctx [⟨k.tokenKind, t, newline⟩]
      (k.isLeaf = true ∧ Readable k.tokenKind t ∧ ctx.left.Admits k.tokenKind t)
        (.behind false k.tokenKind t) := by
  constructor
  · simp only [Token.Context.Legal, and_true, hk, true_and]
    cases k <;> exact Iff.rfl
  · cases k <;> rfl
  · cases k <;> rfl
  · exact Token.Context.left_after (by cases k <;> simp [Piece.Kind.tokenKind])

/-- brackets open and close around words that begin anew -/
theorem passes_bracket {b : Bracket} {inner : List Word} {fits : Prop} {l : Left}
    (newline closeNewline : Bool) (h : Passes (ctx.after b.openKind b.opener) inner fits l) :
    Passes ctx
      (⟨b.openKind, b.opener, newline⟩ :: (inner ++ [⟨b.closeKind, b.closer, closeNewline⟩])) fits
        (.behind (b = .paren && ctx.left.head) b.closeKind b.closer) := by
  have hopen : ctx.Admits b.openKind b.opener := by cases b <;> trivial
  have hclose : ((ctx.after b.openKind b.opener).afterAll inner).Admits b.closeKind b.closer := by
    cases b
    · trivial
    · trivial
    · have hbraces : ((ctx.after .openBrace Bracket.brace.opener).afterAll inner).braces = .block ::
          ctx.braces := h.braces
      simp [Token.Context.Admits, Bracket.closeKind, Bracket.openKind, hbraces]
  refine ⟨?_, ?_, ?_, ?_⟩
  · simp only [Token.Context.Legal, Token.Context.legal_append, h.legal, hopen, hclose,
      readable_open, readable_close, and_true, true_and]
  · simp only [Token.Context.afterAll, Token.Context.afterAll_append]
    have := h.braces
    cases b <;> simp_all [Token.Context.after, Bracket.openKind, Bracket.closeKind]
  · simp only [Token.Context.afterAll, Token.Context.afterAll_append]
    have := h.parens
    cases b <;> simp_all [Token.Context.after, Bracket.openKind, Bracket.closeKind]
  · simp only [Token.Context.afterAll, Token.Context.afterAll_append]
    have := h.parens
    cases b
    · rw [Bracket.closeKind, Token.Context.left_after_closeParen, this]
      rfl
    · exact Token.Context.left_after (by simp [Bracket.closeKind])
    · exact Token.Context.left_after (by simp [Bracket.closeKind])

theorem left_after_open (b : Bracket) : (ctx.after b.openKind b.opener).left = .start := by
  cases b <;> rfl

mutual
theorem passes_of_spells : ∀ {i : Item} {ws : List Word}, Spells i ws → ∀ ctx : Token.Context,
    Passes ctx ws (Fits ctx.left i) (i.leftAfter ctx.left)
  | .leaf k t m, ws, h => by
    intro ctx
    obtain ⟨hk, rfl⟩ := h
    exact passes_leaf hk t m.newline
  | .group b items m closeNewline, ws, h => by
    intro ctx
    obtain ⟨inner, hinner, rfl⟩ := h
    have := passes_of_spellsAll hinner (ctx.after b.openKind b.opener)
    rw [left_after_open] at this
    exact passes_bracket m.newline closeNewline this
  | .template q [] m, ws, h => by
    intro ctx
    obtain ⟨inner, rfl, rfl⟩ := h
    refine ⟨?_, rfl, rfl, rfl⟩
    simp [Token.Context.Legal, Token.Context.Admits, Fits, FitsRest, Word.quasi]
  | .template q (part :: rest) m, ws, h => by
    intro ctx
    obtain ⟨inner, hinner, rfl⟩ := h
    obtain ⟨hlegal, hbraces, hparens, hleft⟩ :=
      passes_of_spellsRest (List.cons_ne_nil part rest) hinner
        (ctx.after .templateHead (Word.quasi false q m.newline).text) ctx.braces rfl rfl
    refine ⟨?_, hbraces, hparens, hleft⟩
    simp only [Token.Context.Legal, Fits, List.isEmpty_cons]
    rw [show (Word.quasi false q m.newline).kind = .templateHead from rfl, hlegal]
    simp [Token.Context.Admits, Word.quasi]
  | .block items m closeNewline, ws, h => by
    intro ctx
    obtain ⟨inner, newline, hinner, rfl⟩ := h
    have := passes_of_spellsAll hinner
      ((ctx.after .module (Text.ofString "module")).after (Bracket.openKind .brace)
        (Bracket.opener .brace))
    rw [left_after_open] at this
    obtain ⟨hlegal, hbraces, hparens, hleft⟩ := passes_bracket newline closeNewline this
    refine ⟨?_, hbraces, hparens, hleft⟩
    simp only [Token.Context.Legal] at hlegal ⊢
    simp only [Bracket.openKind, Bracket.closeKind] at hlegal
    rw [hlegal]
    simp [readable_module, Fits, Token.Context.Admits, Token.Context.left]

theorem passes_of_spellsAll : ∀ {items : List Item} {ws : List Word}, SpellsAll items ws →
    ∀ ctx : Token.Context, Passes ctx ws (FitsAll ctx.left items) (leftAfterAll ctx.left items)
  | [], ws, h => by
    intro ctx
    obtain rfl := h
    exact ⟨by simp [Token.Context.Legal, FitsAll], rfl, rfl, rfl⟩
  | i :: r, ws, h => by
    intro ctx
    obtain ⟨a, b, ha, hb, rfl⟩ := h
    have hi := passes_of_spells ha ctx
    have hr := passes_of_spellsAll hb (ctx.afterAll a)
    rw [hi.left] at hr
    exact hi.append hr

theorem passes_of_spellsRest : ∀ {rest : List (List Item × Text)} {ws : List Word}, rest ≠ [] →
    SpellsRest rest ws → ∀ (ctx : Token.Context) (bs : List Token.Brace), ctx.braces = .template ::
    bs → ctx.left = .start →
      (ctx.Legal ws ↔ FitsRest rest) ∧ (ctx.afterAll ws).braces = bs ∧
      (ctx.afterAll ws).parens = ctx.parens ∧
        (ctx.afterAll ws).left = .behind false .templateTail []
  | [], _, h, _ => (h rfl).elim
  | [(items, q)], ws, _, h => by
    intro ctx bs hbs hl
    obtain ⟨inner, newline, more, hinner, rfl, rfl⟩ := h
    have hi := passes_of_spellsAll hinner ctx
    rw [hl] at hi
    refine ⟨?_, ?_, ?_, ?_⟩
    · simp only [Token.Context.legal_append, hi.legal, Token.Context.Legal, FitsRest]
      simp [Word.chunk, Token.Context.Admits, hi.braces, hbs]
    · simp only [Token.Context.afterAll_append, Token.Context.afterAll]
      simp [Word.chunk, Token.Context.after, hi.braces, hbs]
    · simp only [Token.Context.afterAll_append, Token.Context.afterAll]
      simp [Word.chunk, Token.Context.after, hi.parens]
    · simp only [Token.Context.afterAll_append, Token.Context.afterAll]
      rfl
  | (items, q) :: next :: r, ws, _, h => by
    intro ctx bs hbs hl
    obtain ⟨inner, newline, more, hinner, hmore, rfl⟩ := h
    have hi := passes_of_spellsAll hinner ctx
    rw [hl] at hi
    obtain ⟨hlegal, hbraces, hparens, hleft⟩ := passes_of_spellsRest (List.cons_ne_nil next r) hmore
      ((ctx.afterAll inner).after .templateMiddle (Word.chunk false q newline).text) bs (by
        rw [← hbs, ← hi.braces]; rfl) rfl
    refine ⟨?_, ?_, ?_, ?_⟩
    · simp only [Token.Context.legal_append, hi.legal, Token.Context.Legal, List.isEmpty_cons]
      rw [show (Word.chunk false q newline).kind = .templateMiddle from rfl, hlegal,
        fitsRest_cons (q := q) (r := next :: r)]
      simp [Word.chunk, Token.Context.Admits, hi.braces, hbs]
    · rw [Token.Context.afterAll_append]
      exact hbraces
    · rw [Token.Context.afterAll_append, ← hi.parens]
      exact hparens
    · rw [Token.Context.afterAll_append]
      exact hleft
end

/-- words that spell a sequence are legal just where the sequence fits -/
theorem legal_spellsAll {items : List Item} {ws : List Word} (h : SpellsAll items ws) :
    ctx.Legal ws ↔ FitsAll ctx.left items :=
  (passes_of_spellsAll h ctx).legal

end Item

end Relocation
