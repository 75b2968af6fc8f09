import Relocation.Proofs.Outcome
import Relocation.Proofs.Spelling

/-!
# Reading gives the tree that spans the tokens

`pushAll_of_spansAll`: taking the tokens that a sequence spans adds the sequence.
`spans_of_pushAll`: whatever has been taken, finished or not, spans the tokens taken.  Together they
say which texts can be read and what is read (`cuts_of_read`, `read_of_cuts`).
-/

namespace Relocation

namespace Nest

variable {n : Nest} {token : Token} {newline : Bool} {kind : Token.Kind}

/-! ## taking the tokens of a tree -/

theorem push_open (hn : n.awaitsBrace = false) {b : Bracket} (hk : token.kind = b.openKind) :
    n.push token newline = some (n.enter (.group b) token.start.offset newline) := by
  cases b <;> simp [push, hn, hk, Bracket.openKind]

theorem push_close (hn : n.awaitsBrace = false) {b : Bracket} (hk : token.kind = b.closeKind) :
    n.push token newline = n.close b token.stop.offset newline := by
  cases b <;> simp [push, hn, hk, Bracket.closeKind]

theorem push_leaf (hn : n.awaitsBrace = false) {k : Piece.Kind}
    (hk : leafKind? token.kind = some k) :
    n.push token newline =
      some (n.add (.leaf k token.text (Item.spanMark token token newline))) := by
  obtain ⟨hleaf, hkind⟩ := Piece.Kind.leafKind?_eq_some.1 hk
  cases k <;> simp_all [push, Piece.Kind.tokenKind, leafKind?, Item.spanMark]

theorem pushAll_cons {n' : Nest} {ts : List (Token × Bool)} (h : n.push token newline = some n') :
    n.pushAll ((token, newline) :: ts) = n'.pushAll ts := by
  rw [pushAll, h]

mutual
theorem pushAll_of_spans : ∀ {i : Item} {ts : List (Token × Bool)}, Item.Spans i ts → ∀ n : Nest,
    n.awaitsBrace = false →
    ∀ more : List (Token × Bool), n.pushAll (ts ++ more) = (n.add i).pushAll more
  | .leaf k t m, ts, h => by
    intro n hn more
    obtain ⟨token, newline, hk, rfl, rfl, rfl⟩ := h
    exact pushAll_cons (push_leaf hn hk)
  | .group b items m closeNewline, ts, h => by
    intro n hn more
    obtain ⟨first, newline, inner, last, hfirst, hlast, rfl, hinner, rfl⟩ := h
    rw [List.cons_append, List.append_assoc, pushAll_cons (push_open hn hfirst),
      pushAll_of_spansAll hinner _ rfl, List.cons_append]
    refine pushAll_cons ?_
    rw [push_close rfl hlast]
    simp [close, enter, add, mark, Item.spanMark]
  | .template q [] m, ts, h => by
    intro n hn more
    obtain ⟨token, newline, hk, rfl, rfl, rfl⟩ := h
    refine pushAll_cons ?_
    simp [push, hn, hk, Item.spanMark]
  | .template q (part :: rest) m, ts, h => by
    intro n hn more
    obtain ⟨first, newline, inner, last, hk, rfl, rfl, hrest, rfl⟩ := h
    have hpush : n.push first newline =
        some (n.enter (.template first.text.tail.dropLast.dropLast []) first.start.offset
          newline) := by
      simp [push, hn, hk]
    rw [List.cons_append, pushAll_cons hpush]
    exact pushAll_of_spansRest hrest _ [] _ _ _ _ more
  | .block items m closeNewline, ts, h => by
    intro n hn more
    obtain ⟨first, newline, brace, braceNewline, inner, last, hfirst, hbrace, hlast, rfl,
      hinner, rfl⟩ := h
    have hpush : n.push first newline = some (n.enter .keyword first.start.offset newline) := by
      simp [push, hn, hfirst]
    have hopen : (n.enter .keyword first.start.offset newline).push brace braceNewline =
        some (n.enter .block first.start.offset newline) := by
      simp [push, awaitsBrace, enter, hbrace, enterBlock]
    rw [List.cons_append, List.cons_append, List.append_assoc, pushAll_cons hpush,
      pushAll_cons hopen, pushAll_of_spansAll hinner _ rfl, List.cons_append]
    refine pushAll_cons ?_
    rw [push_close (b := .brace) rfl hlast]
    simp [close, enter, add, mark, Item.spanMark]

theorem pushAll_of_spansAll : ∀ {items : List Item} {ts : List (Token × Bool)},
    Item.SpansAll items ts → ∀ n : Nest, n.awaitsBrace = false → ∀ more : List (Token × Bool),
    n.pushAll (ts ++ more) = (⟨n.frames, items.reverse ++ n.items⟩ : Nest).pushAll more
  | [], ts, h => by
    intro n hn more
    obtain rfl := h
    rfl
  | i :: r, ts, h => by
    intro n hn more
    obtain ⟨a, b, ha, hb, rfl⟩ := h
    rw [List.append_assoc, pushAll_of_spans ha n hn, pushAll_of_spansAll hb (n.add i) hn]
    simp [add]

theorem pushAll_of_spansRest :
    ∀ {rest : List (List Item × Text)} {ts : List (Token × Bool)} {last : Token},
    Item.SpansRest rest ts last → ∀ (q : Text) (done : List (List Item × Text)) (start : Nat)
    (newline : Bool) (before : List Item) (fs : List Frame) (more : List (Token × Bool)),
    (⟨⟨.template q done, start, newline, before⟩ :: fs, []⟩ : Nest).pushAll (ts ++ more) =
      (⟨fs, .template q (done.reverse ++ rest) ⟨some ⟨start, last.stop.offset⟩, newline⟩ ::
        before⟩ : Nest).pushAll more
  | [], _, _, h => h.elim
  | [(items, q')], ts, last, h => by
    intro q done start newline before fs more
    obtain ⟨inner, chunkNewline, hinner, hk, rfl, rfl⟩ := h
    rw [List.append_assoc, pushAll_of_spansAll hinner _ rfl, List.cons_append]
    refine pushAll_cons ?_
    simp [push, awaitsBrace, hk, finishTemplate]
  | (items, q') :: part :: r, ts, last, h => by
    intro q done start newline before fs more
    obtain ⟨inner, chunk, chunkNewline, rest, hinner, hk, rfl, hrest, rfl⟩ := h
    have hpush :
        (⟨⟨.template q done, start, newline, before⟩ :: fs, items.reverse⟩ :
          Nest).push chunk chunkNewline =
        some ⟨⟨.template q ((items, chunk.text.tail.dropLast.dropLast) :: done), start, newline,
          before⟩ :: fs, []⟩ := by
      simp [push, awaitsBrace, hk, resume]
    rw [List.append_assoc, pushAll_of_spansAll hinner _ rfl, List.append_nil, List.cons_append,
      pushAll_cons hpush, pushAll_of_spansRest hrest]
    simp
end

/-! ## what has been taken -/

/-- finished substitutions of an unfinished template, each with the chunk behind it -/
def DoneSpans : List (List Item × Text) → List (Token × Bool) → Prop
  | [], ts => ts = []
  | (items, q) :: r, ts =>
    ∃ inner chunk newline more, Item.SpansAll items inner ∧ chunk.kind = .templateMiddle ∧
      q = chunk.text.tail.dropLast.dropLast ∧ DoneSpans r more ∧
      ts = inner ++ (chunk, newline) :: more

/-- the tokens that opened an unfinished construct, and what is finished of it -/
def OpenerSpans (opener : Opener) (start : Nat) (newline : Bool) (ts : List (Token × Bool)) :
    Prop :=
  match opener with
  | .group b =>
    ∃ first, first.kind = b.openKind ∧ start = first.start.offset ∧ ts = [(first, newline)]
  | .keyword => ∃ first, first.kind = .module ∧ start = first.start.offset ∧ ts = [(first, newline)]
  | .block =>
    ∃ first brace braceNewline, first.kind = .module ∧ brace.kind = .openBrace ∧
      start = first.start.offset ∧ ts = [(first, newline), (brace, braceNewline)]
  | .template q done =>
    ∃ first inner, first.kind = .templateHead ∧ q = first.text.tail.dropLast.dropLast ∧
      start = first.start.offset ∧ DoneSpans done.reverse inner ∧ ts = (first, newline) :: inner

/-- unfinished constructs and the items read in the innermost one, last first; the word `module` is
unfinished only in the innermost one -/
def FramesSpan : List Frame → List Item → List (Token × Bool) → Prop
  | [], items, ts => Item.SpansAll items.reverse ts
  | ⟨opener, start, newline, before⟩ :: fs, items, ts => ∃ a b c, FramesSpan fs before a ∧
      (⟨fs, before⟩ : Nest).awaitsBrace = false ∧ OpenerSpans opener start newline b ∧
      Item.SpansAll items.reverse c ∧ ts = a ++ (b ++ c)

/-- what the nest holds spans the tokens; nothing stands between the word `module` and its brace -/
def Spans (n : Nest) (ts : List (Token × Bool)) : Prop :=
  FramesSpan n.frames n.items ts ∧ (n.awaitsBrace = true → n.items = [])

variable {ts : List (Token × Bool)}

theorem spansAll_append {items more : List Item} {a b : List (Token × Bool)}
    (ha : Item.SpansAll items a) (hb : Item.SpansAll more b) :
    Item.SpansAll (items ++ more) (a ++ b) := by
  induction items generalizing a with
  | nil =>
    obtain rfl := ha
    exact hb
  | cons i r ih =>
    obtain ⟨a₁, a₂, hi, hr, rfl⟩ := ha
    exact ⟨a₁, a₂ ++ b, hi, ih hr, by rw [List.append_assoc]⟩

theorem spansAll_singleton {i : Item} (h : Item.Spans i ts) : Item.SpansAll [i] ts :=
  ⟨ts, [], h, rfl, (List.append_nil ts).symm⟩

theorem framesSpan_cons {fs : List Frame} {items : List Item} {i : Item}
    {more : List (Token × Bool)} (h : FramesSpan fs items ts) (hi : Item.Spans i more) :
    FramesSpan fs (i :: items) (ts ++ more) := by
  cases fs with
  | nil =>
    rw [FramesSpan, List.reverse_cons]
    exact spansAll_append h (spansAll_singleton hi)
  | cons f fs =>
    obtain ⟨opener, start, newline, before⟩ := f
    obtain ⟨a, b, c, ha, hn, hb, hc, rfl⟩ := h
    refine ⟨a, b, c ++ more, ha, hn, hb, ?_, by simp⟩
    rw [List.reverse_cons]
    exact spansAll_append hc (spansAll_singleton hi)

theorem doneSpans_append {done : List (List Item × Text)} {items : List Item}
    {a inner : List (Token × Bool)} {chunk : Token} {newline : Bool} (hd : DoneSpans done a)
    (hi : Item.SpansAll items inner) (hk : chunk.kind = .templateMiddle) :
    DoneSpans (done ++ [(items, chunk.text.tail.dropLast.dropLast)])
      (a ++ (inner ++ [(chunk, newline)])) := by
  induction done generalizing a with
  | nil =>
    obtain rfl := hd
    exact ⟨inner, chunk, newline, [], hi, hk, rfl, rfl, rfl⟩
  | cons part done ih =>
    obtain ⟨items', q⟩ := part
    obtain ⟨inner', chunk', newline', more, hi', hk', hq, hd, rfl⟩ := hd
    exact ⟨inner', chunk', newline', _, hi', hk', hq, ih hd, by simp⟩

theorem spansRest_of_doneSpans {done : List (List Item × Text)} {items : List Item}
    {a inner : List (Token × Bool)} {last : Token} (newline : Bool) (hd : DoneSpans done a)
    (hi : Item.SpansAll items inner) (hk : last.kind = .templateTail) :
    Item.SpansRest (done ++ [(items, last.text.tail.dropLast)])
      (a ++ (inner ++ [(last, newline)])) last := by
  induction done generalizing a with
  | nil =>
    obtain rfl := hd
    exact ⟨inner, newline, hi, hk, rfl, rfl⟩
  | cons part done ih =>
    obtain ⟨items', q⟩ := part
    obtain ⟨inner', chunk', newline', more, hi', hk', hq, hd, rfl⟩ := hd
    have h := ih hd
    cases done with
    | nil => exact ⟨inner', chunk', newline', _, hi', hk', hq, h, by simp⟩
    | cons part done => exact ⟨inner', chunk', newline', _, hi', hk', hq, h, by simp⟩

theorem spans_enter (h : n.Spans ts) (hn : n.awaitsBrace = false) {opener : Opener} {start : Nat}
    (ho : OpenerSpans opener start newline [(token, newline)]) :
    (n.enter opener start newline).Spans (ts ++ [(token, newline)]) :=
  ⟨⟨ts, _, [], h.1, hn, ho, rfl, by simp⟩, fun _ => rfl⟩

theorem spans_add (h : n.Spans ts) (hn : n.awaitsBrace = false) {i : Item}
    {more : List (Token × Bool)} (hi : Item.Spans i more) : (n.add i).Spans (ts ++ more) := by
  refine ⟨framesSpan_cons h.1 hi, fun ha => ?_⟩
  have : n.awaitsBrace = true := ha
  rw [hn] at this
  cases this

/-- a finished construct is one more item of the sequence around it -/
theorem spans_finish {fs : List Frame} {before : List Item} {i : Item}
    {a more : List (Token × Bool)} (ha : FramesSpan fs before a)
    (hn : (⟨fs, before⟩ : Nest).awaitsBrace = false) (hi : Item.Spans i more) :
    (⟨fs, i :: before⟩ : Nest).Spans (a ++ more) :=
  spans_add (n := ⟨fs, before⟩) ⟨ha, fun h => by rw [hn] at h; cases h⟩ hn hi

theorem spans_close (h : n.Spans ts) {b : Bracket} (hk : token.kind = b.closeKind) {n' : Nest}
    (hc : n.close b token.stop.offset newline = some n') : n'.Spans (ts ++ [(token, newline)]) := by
  obtain ⟨frames, items⟩ := n
  cases frames with
  | nil => cases hc
  | cons f fs =>
    obtain ⟨opener, start, fnewline, before⟩ := f
    obtain ⟨⟨a, o, inner, ha, hn, ho, hi, rfl⟩, -⟩ := h
    simp only [close] at hc
    cases opener with
    | group b' =>
      simp only at hc
      split at hc
      · subst b'
        obtain rfl := Option.some.inj hc
        obtain ⟨first, hfirst, rfl, rfl⟩ := ho
        have hgroup :
            Item.Spans (.group b items.reverse (Item.spanMark first token fnewline) newline)
              ((first, fnewline) :: (inner ++ [(token, newline)])) :=
          ⟨first, fnewline, inner, token, hfirst, hk, rfl, hi, rfl⟩
        have := spans_finish ha hn hgroup
        simpa [mark, Item.spanMark] using this
      · cases hc
    | block =>
      simp only at hc
      split at hc
      · subst b
        obtain rfl := Option.some.inj hc
        obtain ⟨first, brace, braceNewline, hfirst, hbrace, rfl, rfl⟩ := ho
        have hblock : Item.Spans (.block items.reverse (Item.spanMark first token fnewline) newline)
            ((first, fnewline) :: (brace, braceNewline) :: (inner ++ [(token, newline)])) :=
          ⟨first, fnewline, brace, braceNewline, inner, token, hfirst, hbrace, hk, rfl, hi, rfl⟩
        have := spans_finish ha hn hblock
        simpa [mark, Item.spanMark] using this
      · cases hc
    | keyword => cases hc
    | template q done => cases hc

theorem spans_resume (h : n.Spans ts) (hk : token.kind = .templateMiddle) {n' : Nest}
    (hr : n.resume token.text.tail.dropLast.dropLast = some n') :
    n'.Spans (ts ++ [(token, newline)]) := by
  obtain ⟨frames, items⟩ := n
  unfold resume at hr
  split at hr
  · rename_i q done start fnewline before fs hf
    obtain rfl := Option.some.inj hr
    obtain rfl : frames = ⟨.template q done, start, fnewline, before⟩ :: fs := hf
    obtain ⟨⟨a, o, inner, ha, hn, ho, hi, rfl⟩, -⟩ := h
    obtain ⟨first, parts, hfirst, hq, hstart, hd, rfl⟩ := ho
    refine ⟨⟨a, (first, fnewline) :: (parts ++ (inner ++ [(token, newline)])), [], ha, hn, ?_,
      rfl, by simp⟩, fun _ => rfl⟩
    refine ⟨first, _, hfirst, hq, hstart, ?_, rfl⟩
    rw [List.reverse_cons]
    exact doneSpans_append hd hi hk
  · cases hr

theorem spans_finishTemplate (h : n.Spans ts) (hk : token.kind = .templateTail) {n' : Nest}
    (hr : n.finishTemplate token.text.tail.dropLast token.stop.offset = some n') :
    n'.Spans (ts ++ [(token, newline)]) := by
  obtain ⟨frames, items⟩ := n
  unfold finishTemplate at hr
  split at hr
  · rename_i q done start fnewline before fs hf
    obtain rfl := Option.some.inj hr
    obtain rfl : frames = ⟨.template q done, start, fnewline, before⟩ :: fs := hf
    obtain ⟨⟨a, o, inner, ha, hn, ho, hi, rfl⟩, -⟩ := h
    obtain ⟨first, parts, hfirst, rfl, rfl, hd, rfl⟩ := ho
    have hrest := spansRest_of_doneSpans newline hd hi hk
    rw [List.reverse_cons]
    cases hdone : done.reverse ++ [(items.reverse, token.text.tail.dropLast)] with
    | nil => simp at hdone
    | cons part rest =>
      rw [hdone] at hrest
      have := spans_finish ha hn
        (i := .template first.text.tail.dropLast.dropLast (part :: rest)
          (Item.spanMark first token fnewline))
        ⟨first, fnewline, _, token, hfirst, rfl, rfl, hrest, rfl⟩
      simpa [Item.spanMark] using this
  · cases hr

theorem spans_enterBlock (h : n.Spans ts) (hn : n.awaitsBrace = true)
    (hk : token.kind = .openBrace) : n.enterBlock.Spans (ts ++ [(token, newline)]) := by
  obtain ⟨frames, items⟩ := n
  obtain rfl : items = [] := h.2 hn
  unfold awaitsBrace at hn
  split at hn
  · rename_i start fnewline before fs hf
    obtain rfl : frames = ⟨.keyword, start, fnewline, before⟩ :: fs := hf
    obtain ⟨⟨a, o, inner, ha, hn, ho, hi, rfl⟩, -⟩ := h
    obtain ⟨first, hfirst, hstart, rfl⟩ := ho
    obtain rfl := hi
    exact ⟨⟨a, [(first, fnewline), (token, newline)], [], ha, hn,
      ⟨first, token, newline, hfirst, hk, hstart, rfl⟩, rfl, by simp⟩, fun _ => rfl⟩
  · cases hn

theorem spans_push {n' : Nest} (h : n.Spans ts) (hp : n.push token newline = some n') :
    n'.Spans (ts ++ [(token, newline)]) := by
  unfold push at hp
  cases hn : n.awaitsBrace with
  | true =>
    simp only [hn, if_true] at hp
    split at hp
    · obtain rfl := Option.some.inj hp
      exact spans_enterBlock h hn ‹_›
    · cases hp
  | false =>
    simp only [hn, Bool.false_eq_true, if_false] at hp
    cases hk : token.kind <;> simp only [hk] at hp
    case openParen =>
      obtain rfl := Option.some.inj hp
      exact spans_enter h hn ⟨token, hk, rfl, rfl⟩
    case openSquare =>
      obtain rfl := Option.some.inj hp
      exact spans_enter h hn ⟨token, hk, rfl, rfl⟩
    case openBrace =>
      obtain rfl := Option.some.inj hp
      exact spans_enter h hn ⟨token, hk, rfl, rfl⟩
    case closeParen => exact spans_close (b := .paren) h hk hp
    case closeSquare => exact spans_close (b := .square) h hk hp
    case closeBrace => exact spans_close (b := .brace) h hk hp
    case module =>
      obtain rfl := Option.some.inj hp
      exact spans_enter h hn ⟨token, hk, rfl, rfl⟩
    case template =>
      obtain rfl := Option.some.inj hp
      exact spans_add h hn ⟨token, newline, hk, rfl, rfl, rfl⟩
    case templateHead =>
      obtain rfl := Option.some.inj hp
      exact spans_enter h hn ⟨token, [], hk, rfl, rfl, rfl, rfl⟩
    case templateMiddle => exact spans_resume h hk hp
    case templateTail => exact spans_finishTemplate h hk hp
    all_goals
      obtain rfl := Option.some.inj hp
      exact spans_add h hn ⟨token, newline, by rw [hk]; rfl, rfl, rfl, rfl⟩

theorem spans_of_pushAll {n' : Nest} {more : List (Token × Bool)} (h : n.Spans ts)
    (hp : n.pushAll more = .ok n') : n'.Spans (ts ++ more) := by
  induction more generalizing n ts with
  | nil =>
    obtain rfl := Except.ok.inj hp
    simpa using h
  | cons t more ih =>
    obtain ⟨token, newline⟩ := t
    rw [pushAll] at hp
    split at hp
    · cases hp
    · have := ih (spans_push h ‹_›) hp
      simpa using this

end Nest

namespace Lexeme

/-- the tokens among the lexemes of a whole text, each with whether a line break comes before it -/
def marked (ls : List Lexeme) : List (Token × Bool) := Token.withBreaks none (tokens .start ls)

theorem map_marked (ls : List Lexeme) : (marked ls).map Word.ofToken = words none ls :=
  map_withBreaks none (by simp)

theorem words_gaps {line ls : List Lexeme} (h : ∀ l ∈ line, l.front = .gap) :
    words none (line ++ ls) = words none ls := by
  induction line with
  | nil => rfl
  | cons l line ih =>
    rw [List.cons_append, words, h l (by simp)]
    exact ih fun l' hl' => h l' (by simp [hl'])

theorem hashbang_gap (t : Text) : ∀ l ∈ hashbang t, l.front = .gap := by
  unfold hashbang
  split
  · intro l hl
    rw [List.mem_singleton.1 hl]
  · intro l hl
    cases hl

theorem hashbang_prefix (t : Text) : textOf (hashbang t) <+: t := by
  unfold hashbang
  split
  · rename_i r
    refine ⟨r.drop (Lexical.lineLength r), ?_⟩
    simp
  · exact List.nil_prefix

/-- behind a line that names an interpreter, a text is cut like any other -/
theorem exists_cut (source : Text) : ∃ r, textOf (hashbang source) ++ r = source ∧
    cut source = (hashbang source ++ (cutFrom {} 0 r).1, (cutFrom {} 0 r).2) := by
  obtain ⟨r, hr⟩ := hashbang_prefix source
  have hdrop : source.drop (textOf (hashbang source)).length = r := by
    generalize textOf (hashbang source) = line at hr
    rw [← hr, List.drop_left]
  refine ⟨r, hr, ?_⟩
  simp only [cut]
  rw [← textOf, cutFrom_drop, hdrop]

theorem cuts_behind_hashbang {source : Text} {all : List Lexeme} (h : cut source = (all, none)) :
    ∃ ls, all = hashbang source ++ ls ∧ textOf (hashbang source) ++ textOf ls = source ∧
    Cuts {} ls [] := by
  obtain ⟨r, hr, hcut⟩ := exists_cut source
  rw [hcut] at h
  obtain ⟨rfl, hnone⟩ := Prod.mk.inj h
  obtain ⟨ht, hcuts⟩ := cuts_of_cutFrom (t := r) (Prod.ext rfl hnone)
  exact ⟨_, rfl, by rw [ht, hr], hcuts⟩

theorem cuts_of_cut {source : Text} {all : List Lexeme} (h : cut source = (all, none)) :
    ∃ line ls, all = line ++ ls ∧ textOf line ++ textOf ls = source ∧ (∀ l ∈ line, l.front = .gap) ∧
    Cuts {} ls [] := by
  obtain ⟨ls, hall, htext, hcuts⟩ := cuts_behind_hashbang h
  exact ⟨_, ls, hall, htext, hashbang_gap source, hcuts⟩

end Lexeme

namespace Program

/-- a text that can be read is cut into lexemes throughout, and what is read spans the tokens among
them -/
theorem cuts_of_read {source : Text} {p : Program} (h : read source = .ok p) :
    p.source = some source ∧ ∃ line ls, Lexeme.cut source = (line ++ ls, none) ∧
      Lexeme.textOf line ++ Lexeme.textOf ls = source ∧ (∀ l ∈ line, l.front = .gap) ∧
      Lexeme.Cuts {} ls [] ∧ Item.SpansAll p.items (Lexeme.marked (line ++ ls)) := by
  obtain ⟨items, hitems, h⟩ := Except.bind_eq_ok.1 h
  obtain rfl := Except.ok.inj h
  obtain ⟨nest, hpush, hfinish⟩ := Except.bind_eq_ok.1 hitems
  have hempty : Nest.Spans {} [] := ⟨rfl, fun h => by cases h⟩
  have hspans := Nest.spans_of_pushAll hempty hpush
  cases hcut : Lexeme.cut source with
  | mk all failure =>
    simp only [TokenStream.ofText, hcut] at hfinish hspans
    cases failure with
    | some refusal => cases hfinish
    | none =>
      obtain ⟨line, ls, rfl, ht, hgap, hcuts⟩ := Lexeme.cuts_of_cut hcut
      refine ⟨rfl, line, ls, rfl, ht, hgap, hcuts, ?_⟩
      obtain ⟨frames, items'⟩ := nest
      cases frames with
      | nil =>
        obtain rfl := Except.ok.inj hfinish
        exact hspans.1
      | cons f fs => cases hfinish

/-- what spans the tokens of a text that is cut throughout is read -/
theorem read_of_cut {source : Text} {all : List Lexeme} (hcut : Lexeme.cut source = (all, none))
    {items : List Item} (h : Item.SpansAll items (Lexeme.marked all)) :
    read source = .ok ⟨items, some source⟩ := by
  have hpush := Nest.pushAll_of_spansAll h {} rfl []
  rw [List.append_nil, List.append_nil] at hpush
  have hitems : (TokenStream.ofText source).items = .ok items := by
    simp only [TokenStream.items, TokenStream.ofText, hcut]
    rw [← Lexeme.marked, hpush]
    simp [Nest.pushAll, Nest.finish, bind, Except.bind]
  rw [read, hitems]
  rfl

theorem read_of_spans {ls : List Lexeme} (hc : Lexeme.Cuts {} ls []) {items : List Item}
    (h : Item.SpansAll items (Lexeme.marked ls)) :
    read (Lexeme.textOf ls) = .ok ⟨items, some (Lexeme.textOf ls)⟩ :=
  read_of_cut (Lexeme.cut_of_cuts hc) h

/-- what the words of a text spell is read, up to ranges -/
theorem read_of_spells {ls : List Lexeme} (hc : Lexeme.Cuts {} ls []) {items : List Item}
    (h : Item.SpellsAll items (Lexeme.words none ls)) :
    ∃ items', read (Lexeme.textOf ls) = .ok ⟨items', some (Lexeme.textOf ls)⟩ ∧
      Item.unplacedAll items' = Item.unplacedAll items ∧
      Item.SpansAll items' (Lexeme.marked ls) := by
  rw [← Lexeme.map_marked] at h
  obtain ⟨items', hspans, hun⟩ := Item.spansAll_of_spellsAll h
  exact ⟨items', read_of_spans hc hspans, hun, hspans⟩

end Program

end Relocation
