import Relocation.Proofs.Lowering
import Relocation.Proofs.RoundTrip
import Relocation.Proofs.Unplaced

/-!
# The text between the braces of a block

`Item.inside?` cuts the text between the braces of a module block out of its source.
`Program.read_inside`: read by itself, it is the sequence of the block, up to ranges and a line
break before it.
-/

namespace Relocation

open Token.Context Lexical

namespace Lexeme

variable {ctx ctx' : Token.Context} {l : Lexeme} {ls : List Lexeme} {rest rest' : Text}

/-! ## cutting the text by itself -/

/-- looking ahead for a brace over lexemes does not depend on the context they are read in -/
theorem leadsToBrace_textOf (h : Cuts ctx ls rest) (h' : Cuts ctx' ls rest')
    (hr : leadsToBrace false rest = leadsToBrace false rest') :
    leadsToBrace false (textOf ls ++ rest) = leadsToBrace false (textOf ls ++ rest') := by
  induction ls generalizing ctx ctx' with
  | nil => exact hr
  | cons l ls ih =>
    obtain ⟨front, text⟩ := l
    obtain ⟨⟨c, t, ht, hl⟩, hls⟩ := h
    obtain ⟨⟨c', t', ht', hl'⟩, hls'⟩ := h'
    obtain rfl : text = c :: t := ht
    obtain ⟨rfl, rfl⟩ := List.cons.inj ht'
    rw [textOf_cons, List.append_assoc, List.append_assoc]
    cases front with
    | gap => rw [hl.leadsToBrace, hl'.leadsToBrace, ih hls hls']
    | token kind =>
      have hbrace :
          ∀ {ctx : Token.Context} {rest : Text}, ctx.Reads c (t ++ rest) (.token kind) t.length →
          leadsToBrace false (c :: t ++ rest) = decide (kind = .openBrace) := by
        intro ctx rest hread
        rw [Bool.eq_iff_iff, decide_eq_true_eq]
        refine ⟨hread.openBrace_of_leadsToBrace, fun hk => ?_⟩
        subst hk
        have : c :: t = [.char '\x7b'] := hread.shaped
        rw [this]
        rfl
      rw [hbrace hl, hbrace hl']

/-- what is cut does not depend on which of the texts comes behind it -/
structure Unseen (rest rest' : Text) : Prop where
  lead : leadsToBrace false rest = leadsToBrace false rest'
  gap : ∀ {ctx ctx' : Token.Context} {c : CodePoint} {t : Text} (r : Text),
    ctx.Reads c (t ++ (r ++ rest)) .gap t.length → ctx'.Reads c (t ++ (r ++ rest')) .gap t.length
  apart : ∀ {kind : Token.Kind} {c : CodePoint} {t : Text} (r : Text),
    Apart kind (c :: t) (r ++ rest) → Apart kind (c :: t) (r ++ rest')

theorem Unseen.refl (rest : Text) : Unseen rest rest :=
  ⟨rfl, fun _ h => h.gap_move id .inl id, fun _ h => h⟩

theorem unseen_brace (rest : Text) : Unseen (.char '\x7d' :: rest) [] :=
  ⟨rfl, fun r h => by rw [List.append_nil]; exact h.gap_of_brace,
    fun r h => by rw [List.append_nil]; exact apart_of_brace h⟩

/-- lexemes are cut alike wherever their words may stand -/
theorem Unseen.cuts {broken : Option Bool} (hu : Unseen rest rest') (h : Cuts ctx ls rest)
    (hl : ctx'.Legal (words broken ls)) (hm : ctx.namesMember = ctx'.namesMember) :
    Cuts ctx' ls rest' := by
  induction ls generalizing ctx ctx' broken with
  | nil => trivial
  | cons l ls ih =>
    obtain ⟨front, text⟩ := l
    obtain ⟨⟨c, t, ht, hread⟩, hls⟩ := h
    obtain rfl : text = c :: t := ht
    cases front with
    | gap => exact ⟨⟨c, t, rfl, hu.gap _ hread⟩, ih hls hl hm⟩
    | token kind =>
      obtain ⟨-, ha, hlegal⟩ := hl
      have hcuts : Cuts (ctx'.after kind (c :: t)) ls rest' := by
        refine ih hls hlegal ?_
        exact (Word.namesMember_after ctx ⟨kind, c :: t, false⟩).trans
          (Word.namesMember_after ctx' ⟨kind, c :: t, false⟩).symm
      have hread : ctx.Reads c (t ++ (textOf ls ++ rest)) (.token kind) t.length := hread
      obtain ⟨-, hapart, hforesees⟩ := hread.place
      have hlead := leadsToBrace_textOf hls hcuts hu.lead
      refine ⟨⟨c, t, rfl, hread.move ha (hu.apart _ hapart) ⟨fun hk => ?_,
        fun hk hmodule hl => ?_⟩⟩, hcuts⟩
      · rw [← hlead]
        exact hforesees.1 hk
      · rw [← hm]
        exact hforesees.2 hk hmodule (by rw [hlead]; exact hl)

/-! ## from tokens back to lexemes -/

variable {p : Position} {last : Option Nat}

theorem stop_append (a b : List Lexeme) : stop p (a ++ b) = stop (stop p a) b := by
  induction a generalizing p with
  | nil => rfl
  | cons l a ih => exact ih

theorem offset_stop (p : Position) (ls : List Lexeme) :
    (stop p ls).offset = p.offset + (textOf ls).length := by
  induction ls generalizing p with
  | nil => rfl
  | cons l ls ih =>
    rw [stop, ih, Position.offset_advance, textOf_cons, List.length_append, Nat.add_assoc]

theorem tokens_gaps {gs : List Lexeme} (h : ∀ g ∈ gs, g.front = .gap) :
    tokens p (gs ++ ls) = tokens (stop p gs) ls := by
  induction gs generalizing p with
  | nil => rfl
  | cons g gs ih =>
    rw [List.cons_append, tokens, h g (by simp)]
    exact ih fun g' hg' => h g' (by simp [hg'])

/-- the lexemes of a first token -/
theorem withBreaks_eq_cons {t : Token} {newline : Bool} {ts : List (Token × Bool)}
    (h : Token.withBreaks last (tokens p ls) = (t, newline) :: ts) :
    ∃ gs more, ls = gs ++ ⟨.token t.kind, t.text⟩ :: more ∧ (∀ g ∈ gs, g.front = .gap) ∧
    t.start = stop p gs ∧
      t.stop = t.start.advance t.text ∧ Token.withBreaks (some t.stop.line)
        (tokens t.stop more) = ts := by
  induction ls generalizing p with
  | nil => cases h
  | cons l ls ih =>
    obtain ⟨front, text⟩ := l
    cases front with
    | gap =>
      obtain ⟨gs, more, rfl, hgap, hstart, hstop, hrest⟩ := ih h
      refine ⟨⟨.gap, text⟩ :: gs, more, rfl, ?_, hstart, hstop, hrest⟩
      intro g hg
      rcases List.mem_cons.1 hg with rfl | hg
      · rfl
      · exact hgap g hg
    | token kind =>
      obtain ⟨ht, rfl⟩ := List.cons.inj h
      obtain ⟨rfl, -⟩ := Prod.mk.inj ht
      exact ⟨[], ls, rfl, by simp, rfl, rfl, rfl⟩

/-- the lexemes of the first tokens, up to the last of these -/
theorem withBreaks_eq_append {a b : List (Token × Bool)}
    (h : Token.withBreaks last (tokens p ls) = a ++ b) :
    ∃ front back last', ls = front ++ back ∧ Token.withBreaks last (tokens p front) = a ∧
      Token.withBreaks last' (tokens (stop p front) back) = b ∧
      ∀ t ∈ a.getLast?, stop p front = t.1.stop ∧ last' = some t.1.stop.line := by
  induction a generalizing p ls last with
  | nil => exact ⟨[], ls, last, rfl, rfl, h, fun t ht => by cases ht⟩
  | cons t a ih =>
    obtain ⟨t, newline⟩ := t
    obtain ⟨gs, more, rfl, hgap, hstart, hstop, hrest⟩ := withBreaks_eq_cons h
    have hstops :
        ∀ front : List Lexeme,
          stop p (gs ++ ⟨.token t.kind, t.text⟩ :: front) = stop t.stop front := by
      intro front
      rw [stop_append, stop, ← hstart, ← hstop]
    cases ha : a.getLast? with
    | none =>
      obtain rfl := List.getLast?_eq_none_iff.1 ha
      refine ⟨gs ++ [⟨.token t.kind, t.text⟩], more,
        some t.stop.line, by simp, ?_, by rw [hstops]; exact hrest, ?_⟩
      · rw [tokens_gaps hgap] at h ⊢
        simp only [tokens, Token.withBreaks, List.cons_append, List.cons.injEq] at h ⊢
        exact ⟨h.1, trivial⟩
      · intro t' ht'
        obtain rfl := Option.some.inj ht'
        exact ⟨hstops [], rfl⟩
    | some final =>
      obtain ⟨front, back, last', rfl, hfront, hback, hend⟩ := ih hrest
      refine ⟨gs ++ ⟨.token t.kind, t.text⟩ :: front, back,
        last', by simp, ?_, by rw [hstops]; exact hback, ?_⟩
      · rw [tokens_gaps hgap] at h ⊢
        simp only [tokens, Token.withBreaks, List.cons_append, List.cons.injEq] at h ⊢
        refine ⟨h.1, ?_⟩
        rw [← hstart, ← hstop]
        exact hfront
      · intro t' ht'
        rw [hstops]
        refine hend t' ?_
        rw [List.getLast?_cons, ha] at ht'
        rwa [ha]

/-- tokens begin before the end of their text -/
theorem start_lt_of_mem_tokens (h : ∀ l ∈ ls, l.text ≠ []) :
    ∀ t ∈ tokens p ls, t.start.offset < (stop p ls).offset := by
  induction ls generalizing p with
  | nil => intro t ht; cases ht
  | cons l ls ih =>
    have ih := ih (p := p.advance l.text) fun l' hl' => h l' (by simp [hl'])
    have hpos := List.length_pos_iff.2 (h l (by simp))
    intro t ht
    rw [tokens] at ht
    cases hf : l.front with
    | gap =>
      rw [hf] at ht
      exact ih t ht
    | token kind =>
      rw [hf] at ht
      rcases List.mem_cons.1 ht with rfl | ht
      · rw [stop, offset_stop, Position.offset_advance]
        simp only
        omega
      · exact ih t ht

theorem text_ne_nil_of_cuts (h : Cuts ctx ls rest) : ∀ l ∈ ls, l.text ≠ [] := by
  induction ls generalizing ctx with
  | nil => intro l hl; cases hl
  | cons l ls ih =>
    obtain ⟨⟨c, t, ht, -⟩, hls⟩ := h
    intro l' hl'
    rcases List.mem_cons.1 hl' with rfl | hl'
    · rw [ht]
      simp
    · exact ih hls l' hl'

theorem words_gaps_behind {gs : List Lexeme} (h : ∀ g ∈ gs, g.front = .gap) (broken : Option Bool) :
    words broken (ls ++ gs) = words broken ls := by
  induction ls generalizing broken with
  | nil =>
    have : words broken (gs ++ []) = words _ [] := words_append_gaps h
    rwa [List.append_nil] at this
  | cons l ls ih =>
    rw [List.cons_append, words, words]
    split <;> simp only [ih]

theorem words_none (broken : Option Bool) (ls : List Lexeme) :
    words none ls = Word.beginning false (words broken ls) := by
  induction ls generalizing broken with
  | nil => rfl
  | cons l ls ih =>
    rw [words, words]
    split
    · exact ih _
    · rfl

theorem tokens_gaps_behind {gs : List Lexeme} (h : ∀ g ∈ gs, g.front = .gap) :
    tokens p (ls ++ gs) = tokens p ls := by
  induction ls generalizing p with
  | nil =>
    have : tokens p (gs ++ []) = tokens _ [] := tokens_gaps h
    rwa [List.append_nil] at this
  | cons l ls ih =>
    rw [List.cons_append, tokens, tokens]
    split <;> simp only [ih]

theorem map_fst_withBreaks (last : Option Nat) (ts : List Token) :
    (Token.withBreaks last ts).map (·.1) = ts := by
  induction ts generalizing last with
  | nil => rfl
  | cons t ts ih => simp only [Token.withBreaks, List.map_cons, ih]

/-- the lexemes of a block; gaps before its closing brace belong to the body -/
theorem exists_block_lexemes {before inner after : List (Token × Bool)} {first brace close : Token}
    {n₁ n₂ n₃ : Bool} (h : Token.withBreaks last (tokens p ls) =
      before ++ (first, n₁) :: (brace, n₂) :: (inner ++ (close, n₃) :: after)) :
    ∃ front gs body back broken,
      ls = front ++ ⟨.token first.kind, first.text⟩ :: (gs ++ ⟨.token brace.kind, brace.text⟩ ::
        (body ++ ⟨.token close.kind, close.text⟩ :: back)) ∧
      tokens p front = before.map (·.1) ∧ first.start = stop p front ∧
      first.stop = first.start.advance first.text ∧
      brace.start = stop first.stop gs ∧ brace.stop = brace.start.advance brace.text ∧
      close.start = stop brace.stop body ∧ close.stop = close.start.advance close.text ∧
      words broken body = inner.map Word.ofToken := by
  obtain ⟨front, back, last', rfl, hfront, hback, -⟩ := withBreaks_eq_append h
  obtain ⟨gs₁, back, rfl, hgap₁, hstart₁, hstop₁, hback⟩ := withBreaks_eq_cons hback
  obtain ⟨gs₂, back, rfl, -, hstart₂, hstop₂, hback⟩ := withBreaks_eq_cons hback
  obtain ⟨body, back, last'', rfl, hbody, hback, -⟩ := withBreaks_eq_append hback
  obtain ⟨gs₃, back, rfl, hgap₃, hstart₃, hstop₃, -⟩ := withBreaks_eq_cons hback
  refine ⟨front ++ gs₁, gs₂, body ++ gs₃, back,
    some (decide (brace.stop.line < brace.stop.line)), by simp, ?_, ?_, hstop₁,
    hstart₂, hstop₂, ?_, hstop₃, ?_⟩
  · rw [tokens_gaps_behind hgap₁, ← hfront, map_fst_withBreaks]
  · rw [stop_append, hstart₁]
  · rw [stop_append, hstart₃]
  · rw [words_gaps_behind hgap₃, ← hbody]
    exact (map_withBreaks (some brace.stop.line) (by simp)).symm

end Lexeme

namespace Item

/-! ## blocks in a tree that was read -/

mutual
theorem spans_of_mem_outerBlocks : ∀ {i : Item} {ts : List (Token × Bool)}, Spans i ts →
    ∀ block ∈ outerBlocks i, ∃ before inner after, ts = before ++ (inner ++ after) ∧
    Spans block inner
  | .leaf _ _ _, _, _ => by
    intro block hb
    cases hb
  | .group _ _ _ c, _, h => by
    intro block hb
    obtain ⟨first, newline, inner, last, -, -, -, hinner, rfl⟩ := h
    obtain ⟨before, mid, after, rfl, hmid⟩ := spans_of_mem_outerBlocksAll hinner block hb
    exact ⟨(first, newline) :: before, mid, after ++ [(last, c)], by simp, hmid⟩
  | .template _ [] _, _, _ => by
    intro block hb
    cases hb
  | .template _ (_ :: _) _, _, h => by
    intro block hb
    obtain ⟨first, newline, inner, last, -, -, -, hinner, rfl⟩ := h
    obtain ⟨before, mid, after, rfl, hmid⟩ := spans_of_mem_outerBlocksRest hinner block hb
    exact ⟨(first, newline) :: before, mid, after, by simp, hmid⟩
  | .block _ _ _, ts, h => by
    intro block hb
    obtain rfl := List.mem_singleton.1 hb
    exact ⟨[], ts, [], by simp, h⟩

theorem spans_of_mem_outerBlocksAll : ∀ {items : List Item} {ts : List (Token × Bool)},
    SpansAll items ts → ∀ block ∈ outerBlocksAll items, ∃ before inner after, ts = before ++
      (inner ++ after) ∧ Spans block inner
  | [], _, _ => by
    intro block hb
    cases hb
  | _ :: _, _, h => by
    intro block hb
    obtain ⟨a, b, ha, hr, rfl⟩ := h
    rcases List.mem_append.1 hb with hb | hb
    · obtain ⟨before, mid, after, rfl, hmid⟩ := spans_of_mem_outerBlocks ha block hb
      exact ⟨before, mid, after ++ b, by simp, hmid⟩
    · obtain ⟨before, mid, after, rfl, hmid⟩ := spans_of_mem_outerBlocksAll hr block hb
      exact ⟨a ++ before, mid, after, by simp, hmid⟩

theorem spans_of_mem_outerBlocksRest :
    ∀ {rest : List (List Item × Text)} {ts : List (Token × Bool)} {last : Token},
    SpansRest rest ts last → ∀ block ∈ outerBlocksRest rest,
    ∃ before inner after, ts = before ++ (inner ++ after) ∧ Spans block inner
  | [], _, _, h => h.elim
  | [(_, _)], _, last, h => by
    intro block hb
    obtain ⟨inner, newline, hinner, -, -, rfl⟩ := h
    rw [outerBlocksRest, outerBlocksRest, List.append_nil] at hb
    obtain ⟨before, mid, after, rfl, hmid⟩ := spans_of_mem_outerBlocksAll hinner block hb
    exact ⟨before, mid, after ++ [(last, newline)], by simp, hmid⟩
  | (_, _) :: _ :: _, _, _, h => by
    intro block hb
    obtain ⟨inner, chunk, newline, more, hinner, -, -, hmore, rfl⟩ := h
    rw [outerBlocksRest] at hb
    rcases List.mem_append.1 hb with hb | hb
    · obtain ⟨before, mid, after, rfl, hmid⟩ := spans_of_mem_outerBlocksAll hinner block hb
      exact ⟨before, mid, after ++ (chunk, newline) :: more, by simp, hmid⟩
    · obtain ⟨before, mid, after, rfl, hmid⟩ := spans_of_mem_outerBlocksRest hmore block hb
      exact ⟨inner ++ (chunk, newline) :: before, mid, after, by simp, hmid⟩
end

mutual
theorem fits_of_mem_outerBlocks : ∀ {i : Item} {l : Token.Left}, Fits l i → ∀ block ∈ outerBlocks i,
    ∃ l', Fits l' block
  | .leaf _ _ _, _, _ => by
    intro block hb
    cases hb
  | .group _ _ _ _, _, h => fits_of_mem_outerBlocksAll h
  | .template _ _ _, _, h => fits_of_mem_outerBlocksRest h.2
  | .block _ _ _, l, h => by
    intro block hb
    obtain rfl := List.mem_singleton.1 hb
    exact ⟨l, h⟩

theorem fits_of_mem_outerBlocksAll : ∀ {items : List Item} {l : Token.Left}, FitsAll l items →
    ∀ block ∈ outerBlocksAll items, ∃ l', Fits l' block
  | [], _, _ => by
    intro block hb
    cases hb
  | _ :: _, _, h => by
    intro block hb
    rcases List.mem_append.1 hb with hb | hb
    · exact fits_of_mem_outerBlocks h.1 block hb
    · exact fits_of_mem_outerBlocksAll h.2 block hb

theorem fits_of_mem_outerBlocksRest : ∀ {rest : List (List Item × Text)}, FitsRest rest →
    ∀ block ∈ outerBlocksRest rest, ∃ l', Fits l' block
  | [], _ => by
    intro block hb
    cases hb
  | (_, _) :: _, h => by
    intro block hb
    rcases List.mem_append.1 hb with hb | hb
    · exact fits_of_mem_outerBlocksAll h.1 block hb
    · exact fits_of_mem_outerBlocksRest h.2.2 block hb
end

/-- the text between the braces of a block that was read from a source -/
def inside? (source : Text) (block : Item) : Option Text := do
  let range ← block.range?
  let brace ← (TokenStream.ofText source).tokens.find? fun t => range.start ≤ t.start.offset &&
    t.kind = .openBrace
  return (source.take (range.stop - 1)).drop brace.stop.offset

theorem spellsAll_beginning {items : List Item} {ws : List Word} (h : SpellsAll items ws) :
    SpellsAll (beginning items) (Word.beginning false ws) := by
  cases items with
  | nil =>
    obtain rfl := h
    rfl
  | cons i r =>
    obtain ⟨a, b, ha, hb, rfl⟩ := h
    refine ⟨Word.beginning false a, b, ?_, hb, ?_⟩
    · cases i with
      | leaf k t m =>
        obtain ⟨hk, rfl⟩ := ha
        exact ⟨hk, rfl⟩
      | group b items m c =>
        obtain ⟨inner, hinner, rfl⟩ := ha
        exact ⟨inner, hinner, rfl⟩
      | template q rest m =>
        obtain ⟨inner, hinner, rfl⟩ := ha
        refine ⟨inner, hinner, ?_⟩
        cases rest <;> rfl
      | block items m c =>
        obtain ⟨inner, newline, hinner, rfl⟩ := ha
        exact ⟨inner, newline, hinner, rfl⟩
    · obtain ⟨w, a, rfl, -⟩ := newline_of_spells ha
      rfl

end Item

namespace Lexeme

/-- the first opening brace behind the beginning of a block is its own -/
theorem find?_openBrace {front : List Lexeme} {p : Position} {first brace : Token}
    (hcuts : ∀ l ∈ front, l.text ≠ []) (rest : List Token) (hfirst : first.kind = .module)
    (hbrace : brace.kind = .openBrace) (hstart : first.start = stop p front)
    (hle : first.start.offset ≤ brace.start.offset) :
    (tokens p front ++ first :: brace :: rest).find?
      (fun t => first.start.offset ≤ t.start.offset && t.kind = .openBrace) = some brace := by
  have hfront : ∀ t ∈ tokens p front, ¬first.start.offset ≤ t.start.offset := by
    intro t ht
    have := start_lt_of_mem_tokens hcuts t ht
    rw [hstart]
    omega
  rw [List.find?_append, List.find?_eq_none.2 fun t ht => by simp [hfront t ht]]
  simp [hfirst, hbrace, hle]

/-- the text of lexemes in the middle of others is cut out from where the ones before them stop to
where they stop -/
theorem take_drop_textOf (front body back : List Lexeme) :
    ((textOf (front ++ body ++ back)).take (stop .start (front ++ body)).offset).drop
      (stop .start front).offset =
      textOf body := by
  simp only [offset_stop, Position.start, Nat.zero_add]
  rw [textOf_append (front ++ body), List.take_left, textOf_append, List.drop_left]

end Lexeme

namespace Program

/-- the text between the braces of an outermost block is read as the sequence of the block -/
theorem read_inside {source : Text} {p : Program} (h : read source = .ok p) {items : List Item}
    {m : Mark} {c : Bool} (hb : .block items m c ∈ Item.outerBlocksAll p.items) :
    ∃ slice p', Item.inside? source (.block items m c) = some slice ∧ read slice = .ok p' ∧
    Item.Alike p'.items items := by
  obtain ⟨-, line, ls, hcut, htext, hline, hcuts, hspans⟩ := cuts_of_read h
  have hshaped := shaped_of_read hline hcuts
  obtain ⟨before, mid, after, hmarked, hmid⟩ := Item.spans_of_mem_outerBlocksAll hspans _ hb
  obtain ⟨first, n₁, brace, n₂, inner, close, hfirst, hbrace, hclose, rfl, hinner, rfl⟩ := hmid
  rw [hmarked] at hshaped
  have hsplit : Token.withBreaks none (Lexeme.tokens (Lexeme.stop .start line) ls) =
      before ++ (first, n₁) :: (brace, n₂) :: (inner ++ (close, c) :: after) := by
    rw [← Lexeme.tokens_gaps hline, ← Lexeme.marked, hmarked]
    simp
  obtain ⟨front, gs, body, back, broken, rfl, hfront, hstart₁, hstop₁, hstart₂, hstop₂, hstart₃,
    hstop₃, hwords⟩ :=
    Lexeme.exists_block_lexemes hsplit
  -- the body is cut alike by itself
  have hclosetext : close.text = [.char '\x7d'] := by
    have := hshaped (close, c) (by simp)
    rwa [hclose] at this
  have hbody : Lexeme.Cuts {} body [] := by
    obtain ⟨-, -, hcuts⟩ := Lexeme.cuts_append.1 hcuts
    obtain ⟨-, -, hcuts⟩ := Lexeme.cuts_append.1 hcuts
    obtain ⟨hcuts, -⟩ := Lexeme.cuts_append.1 hcuts
    rw [Lexeme.textOf_cons, hclosetext] at hcuts
    have hspells : Item.SpellsAll items (Lexeme.words broken body) := by
      rw [hwords]
      refine Item.spellsAll_of_spansAll (fun t ht => hshaped t ?_) hinner
      simp [ht]
    obtain ⟨_, -, hfits⟩ := Item.fits_of_mem_outerBlocksAll (fits_of_read h).1 _ hb
    refine (Lexeme.unseen_brace _).cuts hcuts ((Item.legal_spellsAll hspells).2 hfits) ?_
    rw [hbrace]
    rfl
  have hspells : Item.SpellsAll (Item.beginning items) (Lexeme.words none body) := by
    rw [Lexeme.words_none broken, hwords]
    refine Item.spellsAll_beginning (Item.spellsAll_of_spansAll (fun t ht => hshaped t ?_) hinner)
    simp [ht]
  obtain ⟨items', hread, hun, -⟩ := read_of_spells hbody hspells
  refine ⟨_, _, ?_, hread, (Item.alike_append (s := []) hun).trans (Item.alike_beginning items)⟩
  have htokens :
      (TokenStream.ofText source).tokens = Lexeme.tokens (Lexeme.stop .start line) front ++
      first :: brace ::
      (inner.map (·.1) ++ close :: after.map (·.1)) := by
    simp only [TokenStream.ofText, hcut]
    rw [Lexeme.tokens_gaps hline, hfront]
    exact (Lexeme.map_fst_withBreaks none _).symm.trans (by rw [hsplit]; simp)
  have hle : first.start.offset ≤ brace.start.offset := by
    rw [hstart₂, Lexeme.offset_stop, hstop₁, Position.offset_advance]
    omega
  have hfind := Lexeme.find?_openBrace (Lexeme.text_ne_nil_of_cuts (Lexeme.cuts_append.1 hcuts).1)
    (inner.map (·.1) ++ close :: after.map (·.1)) hfirst hbrace hstart₁ hle
  rw [← htokens] at hfind
  -- the offsets of the two braces are the lengths of the texts up to them
  let opening : List Lexeme :=
    line ++ (front ++ ⟨.token first.kind, first.text⟩ :: (gs ++ [⟨.token brace.kind, brace.text⟩]))
  have hopening : brace.stop = Lexeme.stop .start opening := by
    simp only [opening, Lexeme.stop_append, Lexeme.stop]
    rw [hstop₂, hstart₂, hstop₁, hstart₁]
  have hclosing : close.stop.offset - 1 = (Lexeme.stop .start (opening ++ body)).offset := by
    rw [hstop₃, Position.offset_advance, hclosetext, hstart₃, Lexeme.stop_append, hopening]
    rfl
  have hslice :
      (source.take (close.stop.offset - 1)).drop brace.stop.offset = Lexeme.textOf body := by
    have hsource :
        source = Lexeme.textOf (opening ++ body ++ ⟨.token close.kind, close.text⟩ :: back) := by
      rw [← htext]
      simp [opening]
    rw [hclosing, hopening, hsource]
    exact Lexeme.take_drop_textOf opening body _
  simp [Item.inside?, Item.range?, Item.mark, Item.spanMark, hfind, hslice]

end Program

end Relocation
