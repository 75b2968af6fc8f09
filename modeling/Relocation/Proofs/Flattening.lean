import Relocation.Proofs.Grammar
import Relocation.Proofs.Placement

/-!
# What a tree keeps of its tokens

`Item.flatAll` lists the tokens of a tree in document order.  A tree that was read gives its tokens
back, every node reaches from its first token to its last, and nodes side by side follow each other
strictly inside the node around them (`Item.Mirrors`).  `Program.read_exact` is all that reading
does with a text.
-/

namespace Relocation

/-- a token as far as a tree tells: where it begins is known of the first and the last token of a
node only -/
structure Spot where
  kind : Token.Kind
  text : Text
  start : Option Nat

namespace Spot

/-- the first token of a node -/
def first (kind : Token.Kind) (text : Text) (m : Mark) : Spot := ⟨kind, text, m.range.map (·.start)⟩

/-- the last token of a node -/
def last (kind : Token.Kind) (text : Text) (m : Mark) : Spot :=
  ⟨kind, text, m.range.map (·.stop - text.length)⟩

/-- a token between the first and the last one of a node -/
def inner (kind : Token.Kind) (text : Text) : Spot := ⟨kind, text, none⟩

/-- is it the token? -/
def IsOf (s : Spot) (t : Token) : Prop :=
  s.kind = t.kind ∧ s.text = t.text ∧ ∀ offset ∈ s.start, offset = t.start.offset

end Spot

namespace Item

mutual
/-- the tokens of an item -/
def flat : Item → List Spot
  | .leaf k t m => [.first k.tokenKind t m]
  | .group b items m _ =>
    .first b.openKind b.opener m :: (flatAll items ++ [.last b.closeKind b.closer m])
  | .template q rest m =>
    if rest.isEmpty then [.first .template (Text.ofString "\x60" ++ q ++ Text.ofString "\x60") m]
    else .first .templateHead (Text.ofString "\x60" ++ q ++ Text.ofString "$\x7b") m ::
      flatRest m rest
  | .block items m _ =>
    .first .module "module" m :: .inner .openBrace Bracket.brace.opener ::
      (flatAll items ++ [.last .closeBrace Bracket.brace.closer m])

def flatAll : List Item → List Spot
  | [] => []
  | i :: r => flat i ++ flatAll r

/-- the tokens of a template's substitutions and of the chunks behind them -/
def flatRest (m : Mark) : List (List Item × Text) → List Spot
  | [] => []
  | (items, q) :: r =>
    flatAll items ++
      ((if r.isEmpty then .last .templateTail (Text.ofString "\x7d" ++ q ++ Text.ofString "\x60") m
        else .inner .templateMiddle (Text.ofString "\x7d" ++ q ++ Text.ofString "$\x7b")) ::
          flatRest m r)
end

/-- the items directly inside an item, in document order -/
def children : Item → List Item
  | .leaf _ _ _ => []
  | .group _ items _ _ => items
  | .template _ rest _ => rest.flatMap (·.1)
  | .block items _ _ => items

mutual
/-- the item and all items inside of it -/
def nodes : Item → List Item
  | .leaf k t m => [.leaf k t m]
  | .group b items m c => .group b items m c :: nodesAll items
  | .template q rest m => .template q rest m :: nodesRest rest
  | .block items m c => .block items m c :: nodesAll items

def nodesAll : List Item → List Item
  | [] => []
  | i :: r => nodes i ++ nodesAll r

def nodesRest : List (List Item × Text) → List Item
  | [] => []
  | (items, _) :: r => nodesAll items ++ nodesRest r
end

/-- the first item ends before the second begins -/
def Before (i j : Item) : Prop := ∃ a b, i.range? = some a ∧ j.range? = some b ∧ a.stop ≤ b.start

/-- the item lies strictly inside the other one -/
def Inside (i outer : Item) : Prop :=
  ∃ a b, i.range? = some a ∧ outer.range? = some b ∧ b.start < a.start ∧ a.start < a.stop ∧
    a.stop < b.stop

/-- the item reaches from the first to the last of its tokens, which stand side by side -/
def Reaches (tokens : List Token) (i : Item) : Prop :=
  ∃ before inside after first last, tokens = before ++ inside ++ after ∧
    List.Forall₂ Spot.IsOf i.flat inside ∧ inside.head? = some first ∧ inside.getLast? = some last ∧
    i.range? = some ⟨first.start.offset, last.stop.offset⟩

/-- the items are the tokens of the source, nested as they are -/
structure Mirrors (source : Text) (tokens : List Token) (items : List Item) : Prop where
  flat : List.Forall₂ Spot.IsOf (flatAll items) tokens
  text : ∀ t ∈ tokens, (source.take t.stop.offset).drop t.start.offset = t.text ∧
    t.stop.offset = t.start.offset + t.text.length
  reaches : ∀ node ∈ nodesAll items, node.Reaches tokens
  before : items.Pairwise Before
  inside :
    ∀ node ∈ nodesAll items, node.children.Pairwise Before ∧
    ∀ child ∈ node.children, child.Inside node

/-! ## flattening gives the tokens back -/

/-- tokens as they are cut from a text: with the texts of their kinds, and as long as these -/
def Solid (ts : List (Token × Bool)) : Prop :=
  ∀ t ∈ ts, Token.Shaped t.1.kind t.1.text ∧ t.1.stop.offset = t.1.start.offset + t.1.text.length

theorem solid_cons {t : Token × Bool} {ts : List (Token × Bool)} :
    Solid (t :: ts) ↔
    (Token.Shaped t.1.kind t.1.text ∧ t.1.stop.offset = t.1.start.offset + t.1.text.length) ∧
    Solid ts :=
  List.forall_mem_cons

theorem solid_append {a b : List (Token × Bool)} : Solid (a ++ b) ↔ Solid a ∧ Solid b :=
  List.forall_mem_append

variable {first last token : Token} {newline : Bool} {m : Mark} {q : Text}

theorem isOf_first {kind : Token.Kind} {text : Text} (hk : first.kind = kind)
    (ht : first.text = text) : (Spot.first kind text (spanMark first last newline)).IsOf first :=
  ⟨hk.symm, ht.symm, by simp [Spot.first, spanMark]⟩

theorem isOf_last {kind : Token.Kind} {text : Text} (hk : last.kind = kind) (ht : last.text = text)
    (hlen : last.stop.offset = last.start.offset + last.text.length) :
    (Spot.last kind text (spanMark first last newline)).IsOf last := by
  refine ⟨hk.symm, ht.symm, ?_⟩
  simp only [Spot.last, spanMark, Option.map_some, Option.mem_def, Option.some.injEq, forall_eq']
  rw [hlen, ht]
  omega

theorem isOf_inner {kind : Token.Kind} {text : Text} (hk : token.kind = kind)
    (ht : token.text = text) : (Spot.inner kind text).IsOf token :=
  ⟨hk.symm, ht.symm, by simp [Spot.inner]⟩

/-- the words of tokens tell their texts -/
theorem text_of_ofToken {w : Word} (h : Word.ofToken (token, false) = w) : token.text = w.text :=
  congrArg Word.text h

mutual
theorem flat_of_spans : ∀ {i : Item} {ts : List (Token × Bool)}, Spans i ts → Solid ts →
    List.Forall₂ Spot.IsOf i.flat (ts.map (·.1))
  | .leaf k t m, _, h => by
    intro hs
    obtain ⟨token, newline, hk, rfl, rfl, rfl⟩ := h
    exact .cons (isOf_first (Piece.Kind.leafKind?_eq_some.1 hk).2 rfl) .nil
  | .group b items m c, _, h => by
    intro hs
    obtain ⟨first, newline, inner, last, hfirst, hlast, rfl, hinner, rfl⟩ := h
    obtain ⟨hs₁, hs⟩ := solid_cons.1 hs
    obtain ⟨hs₂, hs⟩ := solid_append.1 hs
    obtain ⟨hs₃, -⟩ := solid_cons.1 hs
    rw [flat, List.map_cons, List.map_append]
    refine .cons (isOf_first hfirst (text_of_ofToken (ofToken_open hfirst hs₁.1))) ?_
    refine List.rel_append (flatAll_of_spansAll hinner hs₂) (.cons ?_ .nil)
    exact isOf_last hlast (text_of_ofToken (ofToken_close hlast hs₃.1)) hs₃.2
  | .template q [] m, _, h => by
    intro hs
    obtain ⟨token, newline, hk, rfl, rfl, rfl⟩ := h
    exact .cons (isOf_first hk (text_of_ofToken (ofToken_quasi hk (solid_cons.1 hs).1.1))) .nil
  | .template q (part :: rest) m, _, h => by
    intro hs
    obtain ⟨first, newline, inner, last, hk, rfl, rfl, hrest, rfl⟩ := h
    obtain ⟨hs₁, hs⟩ := solid_cons.1 hs
    rw [flat, if_neg (by simp), List.map_cons]
    refine .cons (isOf_first hk (text_of_ofToken (ofToken_head hk hs₁.1))) ?_
    exact flatRest_of_spansRest hrest hs first newline
  | .block items m c, _, h => by
    intro hs
    obtain ⟨first, newline, brace, braceNewline, inner, last, hfirst, hbrace, hlast, rfl,
      hinner, rfl⟩ := h
    obtain ⟨hs₁, hs⟩ := solid_cons.1 hs
    obtain ⟨hs₂, hs⟩ := solid_cons.1 hs
    obtain ⟨hs₃, hs⟩ := solid_append.1 hs
    obtain ⟨hs₄, -⟩ := solid_cons.1 hs
    rw [flat, List.map_cons, List.map_cons, List.map_append]
    refine .cons (isOf_first hfirst (text_of_ofToken (ofToken_module hfirst hs₁.1))) ?_
    refine .cons (isOf_inner hbrace (text_of_ofToken (ofToken_open (b := .brace) hbrace hs₂.1))) ?_
    refine List.rel_append (flatAll_of_spansAll hinner hs₃) (.cons ?_ .nil)
    exact isOf_last hlast (text_of_ofToken (ofToken_close (b := .brace) hlast hs₄.1)) hs₄.2

theorem flatAll_of_spansAll : ∀ {items : List Item} {ts : List (Token × Bool)},
    SpansAll items ts → Solid ts → List.Forall₂ Spot.IsOf (flatAll items) (ts.map (·.1))
  | [], _, h => by
    intro _
    obtain rfl := h
    exact .nil
  | i :: r, _, h => by
    intro hs
    obtain ⟨a, b, ha, hb, rfl⟩ := h
    obtain ⟨hs₁, hs₂⟩ := solid_append.1 hs
    rw [List.map_append]
    exact List.rel_append (flat_of_spans ha hs₁) (flatAll_of_spansAll hb hs₂)

theorem flatRest_of_spansRest :
    ∀ {rest : List (List Item × Text)} {ts : List (Token × Bool)} {last : Token},
    SpansRest rest ts last → Solid ts → ∀ (first : Token) (newline : Bool),
    List.Forall₂ Spot.IsOf (flatRest (spanMark first last newline) rest) (ts.map (·.1))
  | [], _, _, h => h.elim
  | [(items, q)], _, last, h => by
    intro hs first newline
    obtain ⟨inner, chunkNewline, hinner, hk, rfl, rfl⟩ := h
    obtain ⟨hs₁, hs⟩ := solid_append.1 hs
    obtain ⟨hs₂, -⟩ := solid_cons.1 hs
    rw [flatRest, List.map_append]
    refine List.rel_append (flatAll_of_spansAll hinner hs₁) (.cons ?_ .nil)
    exact isOf_last hk (text_of_ofToken (ofToken_tail hk hs₂.1)) hs₂.2
  | (items, q) :: part :: r, _, last, h => by
    intro hs first newline
    obtain ⟨inner, chunk, chunkNewline, more, hinner, hk, rfl, hmore, rfl⟩ := h
    obtain ⟨hs₁, hs⟩ := solid_append.1 hs
    obtain ⟨hs₂, hs₃⟩ := solid_cons.1 hs
    rw [flatRest, List.map_append]
    refine List.rel_append (flatAll_of_spansAll hinner hs₁)
      (.cons ?_ (flatRest_of_spansRest hmore hs₃ first newline))
    exact isOf_inner hk (text_of_ofToken (ofToken_middle hk hs₂.1))
end

/-! ## nodes span tokens side by side -/

mutual
theorem spans_of_mem_nodes : ∀ {i : Item} {ts : List (Token × Bool)}, Spans i ts → ∀ node ∈ nodes i,
    ∃ a b c, ts = a ++ b ++ c ∧ Spans node b
  | .leaf _ _ _, ts, h => by
    intro node hn
    obtain rfl := List.mem_singleton.1 hn
    exact ⟨[], ts, [], by simp, h⟩
  | .group _ _ _ closeNewline, ts, h => by
    intro node hn
    rcases List.mem_cons.1 hn with rfl | hn
    · exact ⟨[], ts, [], by simp, h⟩
    · obtain ⟨first, newline, inner, last, -, -, -, hinner, rfl⟩ := h
      obtain ⟨a, b, c, rfl, hb⟩ := spans_of_mem_nodesAll hinner node hn
      exact ⟨(first, newline) :: a, b, c ++ [(last, closeNewline)], by simp, hb⟩
  | .template _ [] _, ts, h => by
    intro node hn
    obtain rfl := List.mem_singleton.1 hn
    exact ⟨[], ts, [], by simp, h⟩
  | .template _ (_ :: _) _, ts, h => by
    intro node hn
    rcases List.mem_cons.1 hn with rfl | hn
    · exact ⟨[], ts, [], by simp, h⟩
    · obtain ⟨first, newline, inner, last, -, -, -, hrest, rfl⟩ := h
      obtain ⟨a, b, c, rfl, hb⟩ := spans_of_mem_nodesRest hrest node hn
      exact ⟨(first, newline) :: a, b, c, by simp, hb⟩
  | .block _ _ closeNewline, ts, h => by
    intro node hn
    rcases List.mem_cons.1 hn with rfl | hn
    · exact ⟨[], ts, [], by simp, h⟩
    · obtain ⟨first, newline, brace, braceNewline, inner, last, -, -, -, -, hinner, rfl⟩ := h
      obtain ⟨a, b, c, rfl, hb⟩ := spans_of_mem_nodesAll hinner node hn
      exact ⟨(first, newline) :: (brace, braceNewline) :: a, b,
        c ++ [(last, closeNewline)], by simp, hb⟩

theorem spans_of_mem_nodesAll : ∀ {items : List Item} {ts : List (Token × Bool)},
    SpansAll items ts → ∀ node ∈ nodesAll items, ∃ a b c, ts = a ++ b ++ c ∧ Spans node b
  | [], _, _ => by
    intro node hn
    cases hn
  | _ :: _, _, h => by
    intro node hn
    obtain ⟨ts₁, ts₂, h₁, h₂, rfl⟩ := h
    rcases List.mem_append.1 hn with hn | hn
    · obtain ⟨a, b, c, rfl, hb⟩ := spans_of_mem_nodes h₁ node hn
      exact ⟨a, b, c ++ ts₂, by simp, hb⟩
    · obtain ⟨a, b, c, rfl, hb⟩ := spans_of_mem_nodesAll h₂ node hn
      exact ⟨ts₁ ++ a, b, c, by simp, hb⟩

theorem spans_of_mem_nodesRest :
    ∀ {rest : List (List Item × Text)} {ts : List (Token × Bool)} {last : Token},
    SpansRest rest ts last → ∀ node ∈ nodesRest rest, ∃ a b c, ts = a ++ b ++ c ∧ Spans node b
  | [], _, _, h => h.elim
  | [(_, _)], _, last, h => by
    intro node hn
    obtain ⟨inner, newline, hinner, -, -, rfl⟩ := h
    rw [nodesRest, nodesRest, List.append_nil] at hn
    obtain ⟨a, b, c, rfl, hb⟩ := spans_of_mem_nodesAll hinner node hn
    exact ⟨a, b, c ++ [(last, newline)], by simp, hb⟩
  | (_, _) :: _ :: _, _, _, h => by
    intro node hn
    obtain ⟨inner, chunk, newline, more, hinner, -, -, hmore, rfl⟩ := h
    rcases List.mem_append.1 hn with hn | hn
    · obtain ⟨a, b, c, rfl, hb⟩ := spans_of_mem_nodesAll hinner node hn
      exact ⟨a, b, c ++ (chunk, newline) :: more, by simp, hb⟩
    · obtain ⟨a, b, c, rfl, hb⟩ := spans_of_mem_nodesRest hmore node hn
      exact ⟨inner ++ (chunk, newline) :: a, b, c, by simp, hb⟩
end

theorem getLast?_of_spansRest :
    ∀ {rest : List (List Item × Text)} {ts : List (Token × Bool)} {last : Token},
    SpansRest rest ts last → (ts.map (·.1)).getLast? = some last
  | [], _, _, h => h.elim
  | [(_, _)], _, last, h => by
    obtain ⟨inner, newline, -, -, -, rfl⟩ := h
    simp
  | (_, _) :: _ :: _, _, _, h => by
    obtain ⟨inner, chunk, newline, more, -, -, -, hmore, rfl⟩ := h
    have := getLast?_of_spansRest hmore
    simp [List.getLast?_append, List.getLast?_cons, this]

/-- an item reaches from its first token to its last -/
theorem ends_of_spans {i : Item} {ts : List (Token × Bool)} (h : Spans i ts) :
    ∃ first last, (ts.map (·.1)).head? = some first ∧ (ts.map (·.1)).getLast? = some last ∧
      i.range? = some ⟨first.start.offset, last.stop.offset⟩ := by
  cases i with
  | leaf k t m =>
    obtain ⟨token, newline, -, -, rfl, rfl⟩ := h
    exact ⟨token, token, rfl, rfl, rfl⟩
  | group b items m c =>
    obtain ⟨first, newline, inner, last, -, -, rfl, -, rfl⟩ := h
    exact ⟨first, last, rfl, by simp [List.getLast?_cons], rfl⟩
  | template q rest m =>
    cases rest with
    | nil =>
      obtain ⟨token, newline, -, -, rfl, rfl⟩ := h
      exact ⟨token, token, rfl, rfl, rfl⟩
    | cons part rest =>
      obtain ⟨first, newline, inner, last, -, -, rfl, hrest, rfl⟩ := h
      refine ⟨first, last, rfl, ?_, rfl⟩
      simp [List.getLast?_cons, getLast?_of_spansRest hrest]
  | block items m c =>
    obtain ⟨first, newline, brace, braceNewline, inner, last, -, -, -, rfl, -, rfl⟩ := h
    exact ⟨first, last, rfl, by simp [List.getLast?_cons], rfl⟩

/-! ## nodes side by side -/

theorem inside_of_placedAll {lo hi : Nat} {items : List Item} (h : PlacedAll lo hi items) :
    ∀ i ∈ items, ∃ a, i.range? = some a ∧ lo ≤ a.start ∧ a.start < a.stop ∧ a.stop ≤ hi := by
  induction items generalizing lo with
  | nil =>
    intro i hi
    cases hi
  | cons i r ih =>
    obtain ⟨mid, hfirst, hr⟩ := h
    obtain ⟨a, ha, h₁, h₂, h₃⟩ := range_of_placed hfirst
    have hmid := placedAll_le hr
    intro j hj
    rcases List.mem_cons.1 hj with rfl | hj
    · exact ⟨a, ha, h₁, h₂, by omega⟩
    · obtain ⟨b, hb, h₄, h₅, h₆⟩ := ih hr j hj
      exact ⟨b, hb, by omega, h₅, h₆⟩

theorem pairwise_of_placedAll {lo hi : Nat} {items : List Item} (h : PlacedAll lo hi items) :
    items.Pairwise Before := by
  induction items generalizing lo with
  | nil => exact .nil
  | cons i r ih =>
    obtain ⟨mid, hfirst, hr⟩ := h
    obtain ⟨a, ha, -, -, hstop⟩ := range_of_placed hfirst
    refine .cons (fun j hj => ?_) (ih hr)
    obtain ⟨b, hb, hstart, -, -⟩ := inside_of_placedAll hr j hj
    exact ⟨a, b, ha, hb, Nat.le_trans hstop hstart⟩

theorem Placed.lower {lo lo' hi : Nat} {i : Item} (h : Placed lo hi i) (hle : lo' ≤ lo) :
    Placed lo' hi i := by
  cases i <;>
    · obtain ⟨range, hr, h₁, h⟩ := h
      exact ⟨range, hr, Nat.le_trans hle h₁, h⟩

theorem placedAll_append {lo mid hi : Nat} {a b : List Item} (ha : PlacedAll lo mid a)
    (hb : PlacedAll mid hi b) : PlacedAll lo hi (a ++ b) := by
  induction a generalizing lo with
  | nil =>
    have hle : lo ≤ mid := ha
    cases b with
    | nil => exact Nat.le_trans hle hb
    | cons i r =>
      obtain ⟨m, hi, hr⟩ := hb
      exact ⟨m, hi.lower hle, hr⟩
  | cons i a ih =>
    obtain ⟨m, hi, ha⟩ := ha
    exact ⟨m, hi, ih ha⟩

/-- the substitutions of a template end before its last chunk begins -/
theorem placedAll_flatMap :
    ∀ {rest : List (List Item × Text)} {ts : List (Token × Bool)} {last : Token},
    SpansRest rest ts last → ∀ lo hi : Nat, Token.Run lo hi ts →
    PlacedAll lo last.start.offset (rest.flatMap (·.1)) ∧ last.start.offset < last.stop.offset
  | [], _, _, h => h.elim
  | [(_, _)], _, last, h => by
    intro lo hi hrun
    obtain ⟨inner, newline, hinner, -, -, rfl⟩ := h
    obtain ⟨mid, hin, h₁, h₂, -⟩ := Token.exists_run_of_append hrun
    refine ⟨?_, h₂⟩
    simpa using placedAll_of_spansAll hinner lo _ (hin.mono (Nat.le_refl lo) h₁)
  | (_, _) :: _ :: _, _, _, h => by
    intro lo hi hrun
    obtain ⟨inner, chunk, newline, more, hinner, -, -, hmore, rfl⟩ := h
    obtain ⟨mid, hin, h₁, h₂, hrun⟩ := Token.exists_run_of_append hrun
    obtain ⟨hplaced, hlast⟩ := placedAll_flatMap hmore _ _ hrun
    refine ⟨placedAll_append (placedAll_of_spansAll hinner lo _ (hin.mono (Nat.le_refl lo) ?_))
      hplaced, hlast⟩
    omega

theorem inside_of_bounds {i : Item} {items : List Item} {range : Range} {lo hi : Nat}
    (hr : i.range? = some range) (hlo : range.start < lo) (hhi : hi < range.stop)
    (h : PlacedAll lo hi items) : ∀ child ∈ items, child.Inside i := by
  intro child hchild
  obtain ⟨a, ha, h₁, h₂, h₃⟩ := inside_of_placedAll h child hchild
  exact ⟨a, range, ha, hr, by omega, h₂, by omega⟩

/-- what is directly inside an item lies behind its first token and before its last -/
theorem inside_children {i : Item} {ts : List (Token × Bool)} (h : Spans i ts) {lo hi : Nat}
    (hrun : Token.Run lo hi ts) :
    i.children.Pairwise Before ∧ ∀ child ∈ i.children, child.Inside i := by
  cases i with
  | leaf k t m => exact ⟨.nil, fun _ h => by cases h⟩
  | group b items m c =>
    obtain ⟨first, newline, inner, last, -, -, rfl, hinner, rfl⟩ := h
    obtain ⟨-, h₁, hrun⟩ := hrun
    obtain ⟨mid, hin, h₂, h₃, -⟩ := Token.exists_run_of_append hrun
    have hplaced := placedAll_of_spansAll hinner _ _ hin
    exact ⟨pairwise_of_placedAll hplaced, inside_of_bounds rfl h₁ (by simp only; omega) hplaced⟩
  | template q rest m =>
    cases rest with
    | nil => exact ⟨.nil, fun _ h => by cases h⟩
    | cons part rest =>
      obtain ⟨first, newline, inner, last, -, -, rfl, hrest, rfl⟩ := h
      obtain ⟨-, h₁, hrun⟩ := hrun
      obtain ⟨hplaced, h₂⟩ := placedAll_flatMap hrest _ _ hrun
      exact ⟨pairwise_of_placedAll hplaced, inside_of_bounds rfl h₁ h₂ hplaced⟩
  | block items m c =>
    obtain ⟨first, newline, brace, braceNewline, inner, last, -, -, -, rfl, hinner, rfl⟩ := h
    obtain ⟨-, h₁, h₂, h₃, hrun⟩ := hrun
    obtain ⟨mid, hin, h₄, h₅, -⟩ := Token.exists_run_of_append hrun
    have hplaced := placedAll_of_spansAll hinner _ _ hin
    exact ⟨pairwise_of_placedAll hplaced,
      inside_of_bounds rfl (by simp only; omega) (by simp only; omega) hplaced⟩

end Item

namespace Lexeme

variable {ls : List Lexeme}

/-- each token is a stretch of the text -/
theorem take_drop_of_mem_tokens (p : Position) (front : Text) (hp : p.offset = front.length) :
    ∀ t ∈ tokens p ls, ((front ++ textOf ls).take t.stop.offset).drop t.start.offset = t.text ∧
      t.stop.offset = t.start.offset + t.text.length := by
  induction ls generalizing p front with
  | nil =>
    intro t ht
    cases ht
  | cons l ls ih =>
    have hadvance : (p.advance l.text).offset = (front ++ l.text).length := by
      rw [Position.offset_advance, hp, List.length_append]
    have ih := ih (p.advance l.text) (front ++ l.text) hadvance
    rw [textOf_cons, ← List.append_assoc]
    intro t ht
    rw [tokens] at ht
    cases hf : l.front with
    | gap =>
      rw [hf] at ht
      exact ih t ht
    | token kind =>
      rw [hf] at ht
      rcases List.mem_cons.1 ht with rfl | ht
      · refine ⟨?_, Position.offset_advance p l.text⟩
        simp only
        rw [hadvance, List.take_left, hp, List.drop_left]
      · exact ih t ht

end Lexeme

namespace Program

open Item

variable {source : Text} {p : Program}

/-- a text that was read has its tokens in the tree -/
theorem mirrors_of_read (h : read source = .ok p) :
    Mirrors source (TokenStream.ofText source).tokens p.items := by
  obtain ⟨-, line, ls, hcut, htext, hline, hcuts, hspans⟩ := cuts_of_read h
  have htokens : (TokenStream.ofText source).tokens = Lexeme.tokens .start (line ++ ls) := by
    simp only [TokenStream.ofText, hcut]
  have hstretch : ∀ t ∈ Lexeme.tokens .start (line ++ ls), _ :=
    Lexeme.take_drop_of_mem_tokens .start [] rfl
  rw [List.nil_append, Lexeme.textOf_append, htext, ← htokens] at hstretch
  have hmarked : (Lexeme.marked (line ++ ls)).map (·.1) = (TokenStream.ofText source).tokens := by
    rw [htokens]
    exact Lexeme.map_fst_withBreaks none _
  have hsolid : Solid (Lexeme.marked (line ++ ls)) := by
    intro t ht
    refine ⟨shaped_of_read hline hcuts t ht, (hstretch t.1 ?_).2⟩
    rw [← hmarked]
    exact List.mem_map_of_mem ht
  have hrun :=
    Lexeme.run_withBreaks (Lexeme.text_ne_nil_of_cuts hcuts) (Lexeme.stop .start line) none
  rw [← Lexeme.tokens_gaps hline, ← Lexeme.marked] at hrun
  refine ⟨?_, hstretch, fun node hnode => ?_, ?_, fun node hnode => ?_⟩
  · rw [← hmarked]
    exact flatAll_of_spansAll hspans hsolid
  · obtain ⟨a, b, c, habc, hb⟩ := spans_of_mem_nodesAll hspans node hnode
    obtain ⟨first, last, hfirst, hlast, hrange⟩ := ends_of_spans hb
    have hsolid : Solid b := by
      rw [habc] at hsolid
      exact (solid_append.1 (solid_append.1 hsolid).1).2
    refine ⟨a.map (·.1), b.map (·.1), c.map (·.1), first, last, ?_, flat_of_spans hb hsolid, hfirst,
      hlast, hrange⟩
    rw [← hmarked, habc]
    simp
  · exact pairwise_of_placedAll (placedAll_of_spansAll hspans _ _ hrun)
  · obtain ⟨a, b, c, habc, hb⟩ := spans_of_mem_nodesAll hspans node hnode
    rw [habc] at hrun
    obtain ⟨_, hrun, -⟩ := Token.exists_run_of_append hrun
    obtain ⟨_, -, hrun⟩ := Token.exists_run_of_append hrun
    exact inside_children hb hrun

/-- Exactly the texts are read that are cut into tokens throughout and whose tokens are well
nested.  What is read has all tokens in it, and a text that is refused is refused for its first
fault. -/
theorem read_exact (source : Text) :
    ((∃ p, read source = .ok p) ↔
      (TokenStream.ofText source).failure = none ∧
      Token.AreItems (TokenStream.ofText source).kinds) ∧
    (∀ p, read source = .ok p → p.source = some source ∧
      Mirrors source (TokenStream.ofText source).tokens p.items) ∧
    (∀ e, read source = .error e → (TokenStream.ofText source).FirstFault e) := by
  refine ⟨?_, fun p h => ⟨(cuts_of_read h).1, mirrors_of_read h⟩, fun e h => ?_⟩
  · rw [← TokenStream.exists_items_iff]
    constructor
    · rintro ⟨p, h⟩
      obtain ⟨items, hitems, -⟩ := Except.bind_eq_ok.1 h
      exact ⟨items, hitems⟩
    · rintro ⟨items, h⟩
      exact ⟨_, by rw [read, h]; rfl⟩
  · rcases Except.bind_eq_error.1 h with h | ⟨_, -, h⟩
    · exact TokenStream.items_eq_error h
    · cases h

theorem read_exact_template :
    (∃ p, read (Text.ofString "f(\x60x$\x7b[b]\x7dy\x60)") = .ok p ∧
      Mirrors (Text.ofString "f(\x60x$\x7b[b]\x7dy\x60)")
        (TokenStream.ofText (Text.ofString "f(\x60x$\x7b[b]\x7dy\x60)")).tokens p.items) ∧
    (TokenStream.ofText (Text.ofString "(a]\n'")).FirstFault
      (.sourceAt ⟨2, 1, 3⟩ (.unbalanced (Text.ofString "]"))) ∧
    (TokenStream.ofText (Text.ofString "(a\n'")).FirstFault
      (.sourceAt ⟨3, 2, 1⟩ .unterminatedString) ∧
    (TokenStream.ofText (Text.ofString "(a")).FirstFault (.sourceAt ⟨1, 1, 2⟩ .unclosed) := by
  have hok :
      (read (Text.ofString "f(\x60x$\x7b[b]\x7dy\x60)") >>= fun p => .ok p.items.length) =
        .ok 2 := by
    decide +kernel
  have hrefused : ∀ {t : Text} {e : Failure}, (read t >>= fun p => .ok p.items.length) = .error e →
      read t = .error e := by
    intro t e h
    rcases Except.bind_eq_error.1 h with h | ⟨_, -, h⟩
    · exact h
    · cases h
  obtain ⟨p, hp, -⟩ := Except.bind_eq_ok.1 hok
  exact ⟨⟨p, hp, ((read_exact _).2.1 p hp).2⟩, (read_exact _).2.2 _ (hrefused (by decide +kernel)),
    (read_exact _).2.2 _ (hrefused (by decide +kernel)),
    (read_exact _).2.2 _ (hrefused (by decide +kernel))⟩

end Program

end Relocation
