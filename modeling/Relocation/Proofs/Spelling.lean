import Relocation.Tree.Reader
import Relocation.Proofs.Shape

/-!
# Trees and the words they are spelled with

`Item.SpellsAll` relates a sequence of items to the words that spell it; the line breaks that no
item records are free.  `Item.SpansAll` relates it to tokens, and says of every item from where to
where it reaches.  A sequence spans tokens whose words spell it, up to its ranges
(`spansAll_of_spellsAll`).
-/

namespace Relocation

namespace Bracket

def openKind : Bracket → Token.Kind
  | .paren => .openParen
  | .square => .openSquare
  | .brace => .openBrace

def closeKind : Bracket → Token.Kind
  | .paren => .closeParen
  | .square => .closeSquare
  | .brace => .closeBrace

end Bracket

namespace Piece.Kind

/-- the kind of token that becomes a leaf of the kind, if one does -/
def tokenKind : Piece.Kind → Token.Kind
  | .name => .name
  | .number => .number
  | .string => .string
  | .regex => .regex
  | _ => .punct

/-- is the kind one of those that tokens become leaves of? -/
def isLeaf (k : Piece.Kind) : Bool := Nest.leafKind? k.tokenKind = some k

theorem leafKind?_eq_some {k : Piece.Kind} {kind : Token.Kind} :
    Nest.leafKind? kind = some k ↔ k.isLeaf = true ∧ kind = k.tokenKind := by
  cases kind <;> cases k <;> decide

theorem isLeaf_cases {k : Piece.Kind} (h : k.isLeaf = true) :
    k = .name ∨ k = .number ∨ k = .string ∨ k = .regex ∨ k = .punct := by
  revert h
  cases k <;> decide

end Piece.Kind

namespace Word

/-- the chunk of a template behind a substitution -/
def chunk (last : Bool) (quasi : Text) (newline : Bool) : Word :=
  if last then ⟨.templateTail, Text.ofString "\x7d" ++ quasi ++ Text.ofString "\x60", newline⟩
  else ⟨.templateMiddle, Text.ofString "\x7d" ++ quasi ++ Text.ofString "$\x7b", newline⟩

/-- the chunk of a template that comes first -/
def quasi (whole : Bool) (quasi : Text) (newline : Bool) : Word :=
  if whole then ⟨.template, Text.ofString "\x60" ++ quasi ++ Text.ofString "\x60", newline⟩
  else ⟨.templateHead, Text.ofString "\x60" ++ quasi ++ Text.ofString "$\x7b", newline⟩

end Word

namespace Item

mutual
/-- the words spell the item -/
def Spells : Item → List Word → Prop
  | .leaf k t m, ws => k.isLeaf = true ∧ ws = [⟨k.tokenKind, t, m.newline⟩]
  | .group b items m closeNewline, ws => ∃ inner, SpellsAll items inner ∧
      ws = ⟨b.openKind, b.opener, m.newline⟩ :: (inner ++ [⟨b.closeKind, b.closer, closeNewline⟩])
  | .template q rest m, ws =>
    ∃ inner, SpellsRest rest inner ∧ ws = .quasi rest.isEmpty q m.newline :: inner
  | .block items m closeNewline, ws => ∃ inner newline, SpellsAll items inner ∧
      ws = ⟨.module, Text.ofString "module", m.newline⟩ ::
        ⟨.openBrace, Bracket.brace.opener, newline⟩ ::
        (inner ++ [⟨.closeBrace, Bracket.brace.closer, closeNewline⟩])

def SpellsAll : List Item → List Word → Prop
  | [], ws => ws = []
  | i :: r, ws => ∃ a b, Spells i a ∧ SpellsAll r b ∧ ws = a ++ b

def SpellsRest : List (List Item × Text) → List Word → Prop
  | [], ws => ws = []
  | (items, q) :: r, ws => ∃ inner newline more, SpellsAll items inner ∧ SpellsRest r more ∧
      ws = inner ++ .chunk r.isEmpty q newline :: more
end

theorem SpellsAll.append {a b : List Item} {ws ws' : List Word} (ha : SpellsAll a ws)
    (hb : SpellsAll b ws') : SpellsAll (a ++ b) (ws ++ ws') := by
  induction a generalizing ws with
  | nil =>
    obtain rfl := ha
    exact hb
  | cons i a ih =>
    obtain ⟨first, rest, hfirst, hrest, rfl⟩ := ha
    exact ⟨first, rest ++ ws', hfirst, ih hrest, List.append_assoc _ _ _⟩

/-- the mark of something read from one token to another -/
def spanMark (first last : Token) (newline : Bool) : Mark :=
  ⟨some ⟨first.start.offset, last.stop.offset⟩, newline⟩

mutual
/-- the item is read from the tokens -/
def Spans : Item → List (Token × Bool) → Prop
  | .leaf k t m, ts => ∃ token newline, Nest.leafKind? token.kind = some k ∧ t = token.text ∧
      m = spanMark token token newline ∧ ts = [(token, newline)]
  | .group b items m closeNewline, ts =>
    ∃ first newline inner last, first.kind = b.openKind ∧ last.kind = b.closeKind ∧
      m = spanMark first last newline ∧ SpansAll items inner ∧
      ts = (first, newline) :: (inner ++ [(last, closeNewline)])
  | .template q [] m, ts => ∃ token newline, token.kind = .template ∧ q = token.text.tail.dropLast ∧
      m = spanMark token token newline ∧ ts = [(token, newline)]
  | .template q (part :: rest) m, ts => ∃ first newline inner last, first.kind = .templateHead ∧
      q = first.text.tail.dropLast.dropLast ∧ m = spanMark first last newline ∧
      SpansRest (part :: rest) inner last ∧ ts = (first, newline) :: inner
  | .block items m closeNewline, ts =>
    ∃ first newline brace braceNewline inner last, first.kind = .module ∧
      brace.kind = .openBrace ∧ last.kind = .closeBrace ∧ m = spanMark first last newline ∧
      SpansAll items inner ∧
      ts = (first, newline) :: (brace, braceNewline) :: (inner ++ [(last, closeNewline)])

def SpansAll : List Item → List (Token × Bool) → Prop
  | [], ts => ts = []
  | i :: r, ts => ∃ a b, Spans i a ∧ SpansAll r b ∧ ts = a ++ b

/-- substitutions with the chunks behind them, up to the chunk that is `last` -/
def SpansRest : List (List Item × Text) → List (Token × Bool) → Token → Prop
  | [], _, _ => False
  | [(items, q)], ts, last => ∃ inner newline, SpansAll items inner ∧ last.kind = .templateTail ∧
      q = last.text.tail.dropLast ∧ ts = inner ++ [(last, newline)]
  | (items, q) :: part :: r, ts, last => ∃ inner chunk newline more, SpansAll items inner ∧
      chunk.kind = .templateMiddle ∧ q = chunk.text.tail.dropLast.dropLast ∧
      SpansRest (part :: r) more last ∧ ts = inner ++ (chunk, newline) :: more
end

mutual
/-- the item without its ranges -/
def unplaced : Item → Item
  | .leaf k t m => .leaf k t ⟨none, m.newline⟩
  | .group b items m closeNewline => .group b (unplacedAll items) ⟨none, m.newline⟩ closeNewline
  | .template q rest m => .template q (unplacedRest rest) ⟨none, m.newline⟩
  | .block items m closeNewline => .block (unplacedAll items) ⟨none, m.newline⟩ closeNewline

def unplacedAll : List Item → List Item
  | [] => []
  | i :: r => unplaced i :: unplacedAll r

def unplacedRest : List (List Item × Text) → List (List Item × Text)
  | [] => []
  | (items, q) :: r => (unplacedAll items, q) :: unplacedRest r
end

/-- the item at the beginning of a line or not -/
def begun (newline : Bool) : Item → Item
  | .leaf k t m => .leaf k t { m with newline }
  | .group b items m c => .group b items { m with newline } c
  | .template q rest m => .template q rest { m with newline }
  | .block items m c => .block items { m with newline } c

/-- a sequence that begins a text, where no line break counts -/
def beginning : List Item → List Item
  | [] => []
  | i :: r => i.begun false :: r

/-! ## from tokens to words -/

/-- every token has the text of its kind -/
def ShapedAll (ts : List (Token × Bool)) : Prop := ∀ t ∈ ts, Token.Shaped t.1.kind t.1.text

theorem shapedAll_cons {t : Token × Bool} {ts : List (Token × Bool)} :
    ShapedAll (t :: ts) ↔ Token.Shaped t.1.kind t.1.text ∧ ShapedAll ts := List.forall_mem_cons

theorem shapedAll_append {a b : List (Token × Bool)} : ShapedAll (a ++ b) ↔ ShapedAll a ∧
    ShapedAll b :=
  List.forall_mem_append

theorem ofToken_open {b : Bracket} {token : Token} {newline : Bool} (hk : token.kind = b.openKind)
    (hs : Token.Shaped token.kind token.text) :
    Word.ofToken (token, newline) = ⟨b.openKind, b.opener, newline⟩ := by
  rw [hk] at hs
  have : token.text = b.opener := by cases b <;> exact hs
  rw [Word.ofToken, hk, this]

theorem ofToken_close {b : Bracket} {token : Token} {newline : Bool} (hk : token.kind = b.closeKind)
    (hs : Token.Shaped token.kind token.text) :
    Word.ofToken (token, newline) = ⟨b.closeKind, b.closer, newline⟩ := by
  rw [hk] at hs
  have : token.text = b.closer := by cases b <;> exact hs
  rw [Word.ofToken, hk, this]

theorem ofToken_module {token : Token} {newline : Bool} (hk : token.kind = .module)
    (hs : Token.Shaped token.kind token.text) :
    Word.ofToken (token, newline) = ⟨.module, Text.ofString "module", newline⟩ := by
  rw [hk] at hs
  have : token.text = Text.ofString "module" := hs
  rw [Word.ofToken, hk, this]

theorem ofToken_quasi {token : Token} {newline : Bool} (hk : token.kind = .template)
    (hs : Token.Shaped token.kind token.text) :
    Word.ofToken (token, newline) = .quasi true token.text.tail.dropLast newline := by
  rw [hk] at hs
  obtain ⟨q, hq⟩ := hs
  simp [Word.ofToken, Word.quasi, hk, hq, Text.ofString]

theorem ofToken_head {token : Token} {newline : Bool} (hk : token.kind = .templateHead)
    (hs : Token.Shaped token.kind token.text) :
    Word.ofToken (token, newline) = .quasi false token.text.tail.dropLast.dropLast newline := by
  rw [hk] at hs
  obtain ⟨q, hq⟩ := hs
  simp [Word.ofToken, Word.quasi, hk, hq, Text.ofString]

theorem ofToken_middle {token : Token} {newline : Bool} (hk : token.kind = .templateMiddle)
    (hs : Token.Shaped token.kind token.text) :
    Word.ofToken (token, newline) = .chunk false token.text.tail.dropLast.dropLast newline := by
  rw [hk] at hs
  obtain ⟨q, hq⟩ := hs
  simp [Word.ofToken, Word.chunk, hk, hq, Text.ofString]

theorem ofToken_tail {token : Token} {newline : Bool} (hk : token.kind = .templateTail)
    (hs : Token.Shaped token.kind token.text) :
    Word.ofToken (token, newline) = .chunk true token.text.tail.dropLast newline := by
  rw [hk] at hs
  obtain ⟨q, hq⟩ := hs
  simp [Word.ofToken, Word.chunk, hk, hq, Text.ofString]

mutual
theorem spells_of_spans : ∀ {i : Item} {ts : List (Token × Bool)}, ShapedAll ts → Spans i ts →
    Spells i (ts.map Word.ofToken)
  | .leaf k t m, ts, _, h => by
    obtain ⟨token, newline, hk, rfl, rfl, rfl⟩ := h
    obtain ⟨hleaf, hkind⟩ := Piece.Kind.leafKind?_eq_some.1 hk
    exact ⟨hleaf, by rw [List.map_singleton, Word.ofToken, hkind]; rfl⟩
  | .group b items m closeNewline, ts, hs, h => by
    obtain ⟨first, newline, inner, last, hfirst, hlast, rfl, hinner, rfl⟩ := h
    obtain ⟨hs₁, hs⟩ := shapedAll_cons.1 hs
    obtain ⟨hs₂, hs₃⟩ := shapedAll_append.1 hs
    refine ⟨_, spellsAll_of_spansAll hs₂ hinner, ?_⟩
    rw [List.map_cons, List.map_append, List.map_singleton, ofToken_open hfirst hs₁,
      ofToken_close hlast (shapedAll_cons.1 hs₃).1]
    rfl
  | .template q [] m, ts, hs, h => by
    obtain ⟨token, newline, hk, rfl, rfl, rfl⟩ := h
    exact ⟨[], rfl, by rw [List.map_singleton, ofToken_quasi hk (shapedAll_cons.1 hs).1]; rfl⟩
  | .template q (part :: rest) m, ts, hs, h => by
    obtain ⟨first, newline, inner, last, hk, rfl, rfl, hrest, rfl⟩ := h
    obtain ⟨hs₁, hs⟩ := shapedAll_cons.1 hs
    exact ⟨_, spellsRest_of_spansRest hs hrest, by rw [List.map_cons, ofToken_head hk hs₁]; rfl⟩
  | .block items m closeNewline, ts, hs, h => by
    obtain ⟨first, newline, brace, braceNewline, inner, last, hfirst, hbrace, hlast, rfl,
      hinner, rfl⟩ := h
    obtain ⟨hs₁, hs⟩ := shapedAll_cons.1 hs
    obtain ⟨hs₂, hs⟩ := shapedAll_cons.1 hs
    obtain ⟨hs₃, hs₄⟩ := shapedAll_append.1 hs
    refine ⟨_, braceNewline, spellsAll_of_spansAll hs₃ hinner, ?_⟩
    rw [List.map_cons, List.map_cons, List.map_append, List.map_singleton,
      ofToken_module hfirst hs₁, ofToken_open (b := .brace) hbrace hs₂,
      ofToken_close (b := .brace) hlast (shapedAll_cons.1 hs₄).1]
    rfl

theorem spellsAll_of_spansAll : ∀ {items : List Item} {ts : List (Token × Bool)}, ShapedAll ts →
    SpansAll items ts → SpellsAll items (ts.map Word.ofToken)
  | [], ts, _, h => by
    obtain rfl := h
    rfl
  | i :: r, ts, hs, h => by
    obtain ⟨a, b, ha, hb, rfl⟩ := h
    obtain ⟨hs₁, hs₂⟩ := shapedAll_append.1 hs
    exact ⟨_, _, spells_of_spans hs₁ ha, spellsAll_of_spansAll hs₂ hb, List.map_append⟩

theorem spellsRest_of_spansRest :
    ∀ {rest : List (List Item × Text)} {ts : List (Token × Bool)} {last : Token},
    ShapedAll ts → SpansRest rest ts last → SpellsRest rest (ts.map Word.ofToken)
  | [], _, _, _, h => h.elim
  | [(items, q)], ts, last, hs, h => by
    obtain ⟨inner, newline, hinner, hk, rfl, rfl⟩ := h
    obtain ⟨hs₁, hs₂⟩ := shapedAll_append.1 hs
    refine ⟨_, newline, [], spellsAll_of_spansAll hs₁ hinner, rfl, ?_⟩
    rw [List.map_append, List.map_singleton, ofToken_tail hk (shapedAll_cons.1 hs₂).1]
    rfl
  | (items, q) :: part :: r, ts, last, hs, h => by
    obtain ⟨inner, chunk, newline, more, hinner, hk, rfl, hmore, rfl⟩ := h
    obtain ⟨hs₁, hs₂⟩ := shapedAll_append.1 hs
    obtain ⟨hs₂, hs₃⟩ := shapedAll_cons.1 hs₂
    refine ⟨_, newline, _, spellsAll_of_spansAll hs₁ hinner, spellsRest_of_spansRest hs₃ hmore, ?_⟩
    rw [List.map_append, List.map_cons, ofToken_middle hk hs₂]
    rfl
end

/-! ## from words to tokens -/

mutual
theorem spans_of_spells : ∀ {i : Item} {ts : List (Token × Bool)}, Spells i (ts.map Word.ofToken) →
    ∃ i', Spans i' ts ∧ unplaced i' = unplaced i
  | .leaf k t m, ts, h => by
    obtain ⟨hleaf, hts⟩ := h
    obtain ⟨⟨token, newline⟩, ts', rfl, hw, hnil⟩ := List.map_eq_cons_iff.1 hts
    obtain rfl := List.map_eq_nil_iff.1 hnil
    simp only [Word.ofToken, Word.mk.injEq] at hw
    obtain ⟨hk, rfl, rfl⟩ := hw
    exact ⟨.leaf k token.text (spanMark token token m.newline),
      ⟨token, m.newline, Piece.Kind.leafKind?_eq_some.2 ⟨hleaf, hk⟩, rfl, rfl, rfl⟩, rfl⟩
  | .group b items m closeNewline, ts, h => by
    obtain ⟨inner, hinner, hts⟩ := h
    obtain ⟨⟨first, newline⟩, ts, rfl, hfirst, hts⟩ := List.map_eq_cons_iff.1 hts
    obtain ⟨ts, lasts, rfl, rfl, hlasts⟩ := List.map_eq_append_iff.1 hts
    obtain ⟨⟨last, lastNewline⟩, lasts, rfl, hlast, hnil⟩ := List.map_eq_cons_iff.1 hlasts
    obtain rfl := List.map_eq_nil_iff.1 hnil
    simp only [Word.ofToken, Word.mk.injEq] at hfirst hlast
    obtain ⟨hfk, hft, rfl⟩ := hfirst
    obtain ⟨hlk, hlt, rfl⟩ := hlast
    obtain ⟨items', hitems, hun⟩ := spansAll_of_spellsAll hinner
    refine ⟨.group b items' (spanMark first last m.newline) lastNewline,
      ⟨first, m.newline, ts, last, hfk, hlk, rfl, hitems, rfl⟩, ?_⟩
    simp only [unplaced, hun, spanMark]
  | .template q [] m, ts, h => by
    obtain ⟨inner, rfl, hts⟩ := h
    obtain ⟨⟨token, newline⟩, ts', rfl, hw, hnil⟩ := List.map_eq_cons_iff.1 hts
    obtain rfl := List.map_eq_nil_iff.1 hnil
    simp only [Word.ofToken, Word.quasi, List.isEmpty_nil, if_true, Word.mk.injEq] at hw
    obtain ⟨hk, ht, rfl⟩ := hw
    refine ⟨.template q [] (spanMark token token m.newline), ⟨token, m.newline, hk, ?_, rfl, rfl⟩,
      rfl⟩
    rw [ht]
    simp [Text.ofString]
  | .template q (part :: rest) m, ts, h => by
    obtain ⟨inner, hinner, hts⟩ := h
    obtain ⟨⟨first, newline⟩, ts, rfl, hw, rfl⟩ := List.map_eq_cons_iff.1 hts
    simp only [Word.ofToken, Word.quasi, List.isEmpty_cons, Bool.false_eq_true, if_false,
      Word.mk.injEq] at hw
    obtain ⟨hk, ht, rfl⟩ := hw
    obtain ⟨part', rest', last, hrest, hun⟩ :=
      spansRest_of_spellsRest (List.cons_ne_nil part rest) hinner
    refine ⟨.template q (part' :: rest') (spanMark first last m.newline),
      ⟨first, m.newline, ts, last, hk, ?_, rfl, hrest, rfl⟩, ?_⟩
    · rw [ht]
      simp [Text.ofString]
    · simp only [unplaced, hun, spanMark]
  | .block items m closeNewline, ts, h => by
    obtain ⟨inner, braceNewline, hinner, hts⟩ := h
    obtain ⟨⟨first, newline⟩, ts, rfl, hfirst, hts⟩ := List.map_eq_cons_iff.1 hts
    obtain ⟨⟨brace, newline'⟩, ts, rfl, hbrace, hts⟩ := List.map_eq_cons_iff.1 hts
    obtain ⟨ts, lasts, rfl, rfl, hlasts⟩ := List.map_eq_append_iff.1 hts
    obtain ⟨⟨last, lastNewline⟩, lasts, rfl, hlast, hnil⟩ := List.map_eq_cons_iff.1 hlasts
    obtain rfl := List.map_eq_nil_iff.1 hnil
    simp only [Word.ofToken, Word.mk.injEq] at hfirst hbrace hlast
    obtain ⟨hfk, hft, rfl⟩ := hfirst
    obtain ⟨hbk, hbt, rfl⟩ := hbrace
    obtain ⟨hlk, hlt, rfl⟩ := hlast
    obtain ⟨items', hitems, hun⟩ := spansAll_of_spellsAll hinner
    refine ⟨.block items' (spanMark first last m.newline) lastNewline,
      ⟨first, m.newline, brace, newline', ts, last, hfk, hbk, hlk, rfl, hitems, rfl⟩, ?_⟩
    simp only [unplaced, hun, spanMark]

theorem spansAll_of_spellsAll : ∀ {items : List Item} {ts : List (Token × Bool)},
    SpellsAll items (ts.map Word.ofToken) → ∃ items', SpansAll items' ts ∧
    unplacedAll items' = unplacedAll items
  | [], ts, h => ⟨[], List.map_eq_nil_iff.1 h, rfl⟩
  | i :: r, ts, h => by
    obtain ⟨a, b, ha, hb, hts⟩ := h
    obtain ⟨ts₁, ts₂, rfl, rfl, rfl⟩ := List.map_eq_append_iff.1 hts
    obtain ⟨i', hi, hiu⟩ := spans_of_spells ha
    obtain ⟨r', hr, hru⟩ := spansAll_of_spellsAll hb
    exact ⟨i' :: r', ⟨ts₁, ts₂, hi, hr, rfl⟩, by rw [unplacedAll, unplacedAll, hiu, hru]⟩

theorem spansRest_of_spellsRest : ∀ {rest : List (List Item × Text)} {ts : List (Token × Bool)},
    rest ≠ [] → SpellsRest rest (ts.map Word.ofToken) →
    ∃ part' rest' last, SpansRest (part' :: rest') ts last ∧
    unplacedRest (part' :: rest') = unplacedRest rest
  | [], _, h, _ => (h rfl).elim
  | [(items, q)], ts, _, h => by
    obtain ⟨inner, newline, more, hinner, rfl, hts⟩ := h
    obtain ⟨ts, lasts, rfl, rfl, hlasts⟩ := List.map_eq_append_iff.1 hts
    obtain ⟨⟨last, lastNewline⟩, lasts, rfl, hlast, hnil⟩ := List.map_eq_cons_iff.1 hlasts
    obtain rfl := List.map_eq_nil_iff.1 hnil
    simp only [Word.ofToken, Word.chunk, List.isEmpty_nil, if_true, Word.mk.injEq] at hlast
    obtain ⟨hk, ht, rfl⟩ := hlast
    obtain ⟨items', hitems, hun⟩ := spansAll_of_spellsAll hinner
    refine ⟨(items', q), [], last,
      ⟨ts, lastNewline, hitems, hk, ?_, rfl⟩, by simp only [unplacedRest, hun]⟩
    rw [ht]
    simp [Text.ofString]
  | (items, q) :: next :: r, ts, _, h => by
    obtain ⟨inner, newline, more, hinner, hmore, hts⟩ := h
    obtain ⟨ts, lasts, rfl, rfl, hlasts⟩ := List.map_eq_append_iff.1 hts
    obtain ⟨⟨chunk, chunkNewline⟩, lasts, rfl, hchunk, rfl⟩ := List.map_eq_cons_iff.1 hlasts
    simp only [Word.ofToken, Word.chunk, List.isEmpty_cons, Bool.false_eq_true, if_false,
      Word.mk.injEq] at hchunk
    obtain ⟨hk, ht, rfl⟩ := hchunk
    obtain ⟨items', hitems, hun⟩ := spansAll_of_spellsAll hinner
    obtain ⟨next', r', last, hr, hru⟩ := spansRest_of_spellsRest (List.cons_ne_nil next r) hmore
    refine ⟨(items', q), next' :: r', last, ⟨ts, chunk, chunkNewline, lasts, hitems, hk, ?_,
      hr, rfl⟩, ?_⟩
    · rw [ht]
      simp [Text.ofString]
    · rw [unplacedRest, hru, hun]
      rfl
end

end Item

end Relocation
