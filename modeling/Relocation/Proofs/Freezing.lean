import Relocation.Proofs.Exchange
import Relocation.Proofs.Flattening
import Relocation.Proofs.Tiling

/-!
# Trees with string literals in the place of splits

`Split.freezeFrom` puts a string literal in the place of every split of a sequence, in the order in
which scanning visits them (`Split.visitFrom`).  The tokens of the new tree are those of the old one
with one string in the place of the tokens of each split (`Split.exists_freezes`).
-/

namespace Relocation

open Token (Left)
open Token.Context (openings)

namespace Split

/-! ## visiting splits and freezing them -/

/-- the split of a string literal, if it is one of the known ones -/
def ofString? (known : List Split) (m : Mark) : Option Split :=
  m.range.bind fun r =>
    if ⟨.staticImport, r.start, r.stop⟩ ∈ known then some ⟨.staticImport, r.start, r.stop⟩ else none

mutual
/-- the splits of a sequence in document order: members of `import.meta`, and the literals that are
known to be splits -/
def visitFrom (known : List Split) (afterDot : Bool) : (skip : Nat) → List Item → List Split
  | _, [] => []
  | skip + 1, _ :: r => visitFrom known false skip r
  | 0, i :: r =>
    match metaAt? afterDot i r with
    | some (n, last) => between .metaUrl i last ++ visitFrom known false n r
    | none => visit known i ++ visitFrom known i.isMemberDot 0 r

def visit (known : List Split) : Item → List Split
  | .leaf k _ m => if k = .string then (ofString? known m).toList else []
  | .group _ items _ _ => visitFrom known false 0 items
  | .template _ rest _ => visitRest known rest
  | .block _ _ _ => []

def visitRest (known : List Split) : List (List Item × Text) → List Split
  | [] => []
  | (items, _) :: r => visitFrom known false 0 items ++ visitRest known r
end

variable (frozen : Split → Text)

mutual
/-- the sequence with string literals in the place of its splits -/
def freezeFrom (known : List Split) (afterDot : Bool) : (skip : Nat) → List Item → List Item
  | _, [] => []
  | skip + 1, _ :: r => freezeFrom known false skip r
  | 0, i :: r =>
    match metaAt? afterDot i r with
    | some (n, last) =>
      .leaf .string ((between .metaUrl i last).flatMap frozen) ⟨none, i.mark.newline⟩ ::
        freezeFrom known false n r
    | none => freeze known i :: freezeFrom known i.isMemberDot 0 r

def freeze (known : List Split) : Item → Item
  | .leaf k t m => .leaf k (if k = .string then (ofString? known m).elim t frozen else t) m
  | .group b items m c => .group b (freezeFrom known false 0 items) m c
  | .template q rest m => .template q (freezeRest known rest) m
  | .block items m c => .block items m c

def freezeRest (known : List Split) : List (List Item × Text) → List (List Item × Text)
  | [] => []
  | (items, q) :: r => (freezeFrom known false 0 items, q) :: freezeRest known r
end

section

variable {frozen} {known : List Split} {afterDot : Bool} {i last : Item} {r : List Item} {n : Nat}

theorem visitFrom_member (h : metaAt? afterDot i r = some (n, last)) :
    visitFrom known afterDot 0 (i :: r) = between .metaUrl i last ++ visitFrom known false n r := by
  rw [visitFrom, h]

theorem visitFrom_other (h : metaAt? afterDot i r = none) :
    visitFrom known afterDot 0 (i :: r) = visit known i ++ visitFrom known i.isMemberDot 0 r := by
  rw [visitFrom, h]

theorem freezeFrom_member (h : metaAt? afterDot i r = some (n, last)) :
    freezeFrom frozen known afterDot 0 (i :: r) =
      .leaf .string ((between .metaUrl i last).flatMap frozen) ⟨none, i.mark.newline⟩ ::
    freezeFrom frozen known false n r := by
  rw [freezeFrom, h]

theorem freezeFrom_other (h : metaAt? afterDot i r = none) :
    freezeFrom frozen known afterDot 0 (i :: r) =
      freeze frozen known i :: freezeFrom frozen known i.isMemberDot 0 r := by
  rw [freezeFrom, h]

end

/-! ## tokens -/

/-- a string literal can take the place of the tokens, which are those of the split -/
structure Fills (s : Split) (seg : List (Token × Bool)) : Prop where
  first : ∃ t newline more, seg = (t, newline) :: more ∧ s.start = t.start.offset ∧
    ∃ c r, t.text = c :: r ∧ c ∈ openings
  last : ∃ t ∈ seg.getLast?, s.stop = t.1.stop.offset
  braces : ∀ ctx : Token.Context, (ctx.afterAll (seg.map Word.ofToken)).braces = ctx.braces
  parens : ∀ ctx : Token.Context, (ctx.afterAll (seg.map Word.ofToken)).parens = ctx.parens
  left :
    ∀ ctx : Token.Context, (ctx.afterAll (seg.map Word.ofToken)).left = .behind false .string []

/-- the words are those of the tokens, with one string in the place of the tokens of each split; all
splits are known -/
inductive Freezes (known : List Split) : List Split → List (Token × Bool) → List Word → Prop
  | nil : Freezes known [] [] []
  | keep (t : Token × Bool) {splits : List Split} {ts : List (Token × Bool)} {ws : List Word} :
    Freezes known splits ts ws → Freezes known splits (t :: ts) (.ofToken t :: ws)
  | fill {s : Split} {t : Token} {newline : Bool} {more : List (Token × Bool)} {splits : List Split}
    {ts : List (Token × Bool)} {ws : List Word} : s ∈ known → Fills s ((t, newline) :: more) →
        Freezes known splits ts ws →
    Freezes known (s :: splits) ((t, newline) :: more ++ ts) (⟨.string, frozen s, newline⟩ :: ws)

variable {frozen} {known : List Split}

theorem Freezes.append {ss ss' : List Split} {ts ts' : List (Token × Bool)} {ws ws' : List Word}
    (h : Freezes frozen known ss ts ws) (h' : Freezes frozen known ss' ts' ws') :
    Freezes frozen known (ss ++ ss') (ts ++ ts') (ws ++ ws') := by
  induction h with
  | nil => exact h'
  | keep t _ ih => exact .keep t ih
  | fill hs hf _ ih =>
    rw [List.append_assoc]
    exact .fill hs hf ih

theorem freezes_self (ts : List (Token × Bool)) :
    Freezes frozen known [] ts (ts.map Word.ofToken) := by
  induction ts with
  | nil => exact .nil
  | cons t ts ih => exact .keep t ih

theorem freezes_single {s : Split} {t : Token} {newline : Bool} {more : List (Token × Bool)}
    (hs : s ∈ known) (h : Fills s ((t, newline) :: more)) :
    Freezes frozen known [s] ((t, newline) :: more) [⟨.string, frozen s, newline⟩] := by
  simpa using Freezes.fill hs h Freezes.nil

/-- what has to be known of the tokens: they look like their kinds, and a member of `import.meta`
does not end in a word behind which a regular expression or the head of a statement can begin -/
def Ready (known : List Split) (t : Token × Bool) : Prop :=
  Token.Shaped t.1.kind t.1.text ∧
  (t.1.kind = .string → ∃ c r, t.1.text = c :: r ∧ c ∈ openings) ∧
  (t.1.kind = .name → ∀ s ∈ known, s.kind = .metaUrl → s.stop = t.1.stop.offset →
    Token.operatorWords.contains t.1.text = false ∧ Token.headWords.contains t.1.text = false)

theorem metaMember?_last {r : List Item} {n : Nat} {last : Item}
    (h : metaMember? r = some (n, last)) : last.isAnyName = true ∨ last.isGroup .square = true := by
  obtain ⟨_, _, _, _, -, -, -, -, ⟨-, hsquare⟩ | ⟨_, -, -, hend⟩⟩ := metaMember?_shape h
  · exact .inr hsquare
  · exact hend.imp_right (·.2)

open Item (Spans SpansAll SpansRest Spells SpellsAll SpellsRest ofToken_open ofToken_close
  ofToken_quasi ofToken_head ofToken_middle
  ofToken_tail)

theorem shapedAll_of_ready {ts : List (Token × Bool)} (h : ∀ t ∈ ts, Ready known t) :
    Item.ShapedAll ts :=
  fun t ht => (h t ht).1

theorem spansAll_append_iff {a b : List Item} {ts : List (Token × Bool)} : SpansAll (a ++ b) ts ↔
    ∃ ts₁ ts₂, SpansAll a ts₁ ∧ SpansAll b ts₂ ∧ ts = ts₁ ++ ts₂ := by
  constructor
  · intro h
    induction a generalizing ts with
    | nil => exact ⟨[], ts, rfl, h, rfl⟩
    | cons i a ih =>
      obtain ⟨ts₁, ts₂, hi, hr, rfl⟩ := h
      obtain ⟨ts₃, ts₄, ha, hb, rfl⟩ := ih hr
      exact ⟨ts₁ ++ ts₃, ts₄, ⟨ts₁, ts₃, hi, ha, rfl⟩, hb, by simp⟩
  · rintro ⟨ts₁, ts₂, ha, hb, rfl⟩
    exact Nest.spansAll_append ha hb

/-- the last item of a sequence ends with the last token -/
theorem getLast?_of_spansAll (init : List Item) {last : Item} {ts : List (Token × Bool)}
    (h : SpansAll (init ++ [last]) ts) : ∃ t ∈ ts.getLast?, ∃ range, last.range? = some range ∧
    range.stop = t.1.stop.offset := by
  obtain ⟨ts₁, ts₂, -, ⟨a, b, hlast, rfl, rfl⟩, rfl⟩ := spansAll_append_iff.1 h
  obtain ⟨first, final, hfirst, hfinal, hrange⟩ := Item.ends_of_spans hlast
  rw [List.getLast?_map, Option.map_eq_some_iff] at hfinal
  obtain ⟨t, ht, rfl⟩ := hfinal
  refine ⟨t, ?_, _, hrange, rfl⟩
  rw [List.append_nil, List.getLast?_append, ht]
  rfl

/-- a string can take the place of a member of `import.meta` -/
theorem fills_of_metaMember? {i last : Item} {r : List Item} {n : Nat} {init : List Item}
    {ts : List (Token × Bool)} {s : Split} (hi : i.isName "import" = true)
    (hmeta : metaMember? r = some (n, last)) (hspans : SpansAll (i :: (init ++ [last])) ts)
    (hready : ∀ t ∈ ts, Ready known t) (hs : s ∈ between .metaUrl i last) (hknown : s ∈ known) :
    Fills s ts := by
  obtain ⟨m, rfl⟩ := Item.exists_of_isName hi
  obtain ⟨a, b, ha, hb, rfl⟩ := mem_between.1 hs
  have hpasses :=
    Item.passes_of_spellsAll (Item.spellsAll_of_spansAll (shapedAll_of_ready hready) hspans)
  obtain ⟨t, ht, range, hrange, hstop⟩ :=
    getLast?_of_spansAll (.leaf .name (Text.ofString "import") m :: init) hspans
  rw [hb] at hrange
  obtain rfl := Option.some.inj hrange
  have hstop : (b.stop : Int) = t.1.stop.offset := by rw [hstop]
  refine ⟨?_, ⟨t, ht, hstop⟩, fun ctx => (hpasses ctx).braces, fun ctx => (hpasses ctx).parens,
    fun ctx => ?_⟩
  · obtain ⟨_, more, ⟨token, newline, -, htext, rfl, rfl⟩, -, rfl⟩ := hspans
    obtain rfl := Option.some.inj ha
    exact ⟨token, newline, more, rfl, rfl, .char 'i', Text.ofString "mport", htext.symm, by decide⟩
  · rw [(hpasses ctx).left, ← List.cons_append, Item.leftAfterAll_append]
    rcases metaMember?_last hmeta with hname | hsquare
    · -- the member's name is the last token
      obtain ⟨text, m', rfl⟩ := Item.exists_of_isAnyName hname
      rw [← List.cons_append] at hspans
      obtain ⟨ts₁, ts₂, -, ⟨_, _, ⟨token, newline, hk, rfl, rfl, rfl⟩, rfl, rfl⟩, rfl⟩ :=
        spansAll_append_iff.1 hspans
      obtain rfl := Option.some.inj hb
      have hkind : token.kind = .name := (Piece.Kind.leafKind?_eq_some.1 hk).2
      obtain ⟨hoperator, hhead⟩ := (hready (token, newline) (by simp)).2.2 hkind _ hknown rfl rfl
      show Left.mk (Token.operatorWords.contains token.text) false
        (Token.headWords.contains token.text) = _
      rw [hoperator, hhead]
      rfl
    · obtain ⟨items, m', c, rfl⟩ := Item.exists_of_isGroup hsquare
      rfl

theorem fills_of_string {token : Token} {newline : Bool} {s : Split} (hk : token.kind = .string)
    (hready : Ready known (token, newline)) (hstart : s.start = token.start.offset)
    (hstop : s.stop = token.stop.offset) : Fills s [(token, newline)] := by
  refine ⟨⟨token, newline, [], rfl, hstart, hready.2.1 hk⟩, ⟨(token, newline), rfl, hstop⟩,
    ?_, ?_, ?_⟩
  all_goals
    intro ctx
    simp only [List.map_cons, List.map_nil, Token.Context.afterAll, Word.ofToken, hk]
  · rfl
  · rfl
  · exact Token.Context.left_after (by simp)

theorem eq_of_ofString? {m : Mark} {s : Split} (h : ofString? known m = some s) :
    ∃ range, m.range = some range ∧ s = ⟨.staticImport, range.start, range.stop⟩ ∧ s ∈ known := by
  obtain ⟨range, hrange, h⟩ := Option.bind_eq_some_iff.1 h
  split_ifs at h with hmem
  obtain rfl := Option.some.inj h
  exact ⟨range, hrange, rfl, hmem⟩

/-- an item that spans tokens has a range -/
theorem exists_between (kind : Kind) {i last : Item} {init : List Item} {ts : List (Token × Bool)}
    (h : SpansAll (i :: (init ++ [last])) ts) : ∃ s, between kind i last = [s] := by
  obtain ⟨a, b, hi, hr, rfl⟩ := h
  obtain ⟨ts₁, ts₂, -, ⟨_, _, hlast, -, -⟩, -⟩ := spansAll_append_iff.1 hr
  obtain ⟨_, _, -, -, hfirst⟩ := Item.ends_of_spans hi
  obtain ⟨_, _, -, -, hfinal⟩ := Item.ends_of_spans hlast
  exact ⟨_, by rw [between, hfirst, hfinal]⟩

theorem forall_append {p : Split → Prop} {a b : List Split} (h : ∀ s ∈ a ++ b, p s) :
    (∀ s ∈ a, p s) ∧ ∀ s ∈ b, p s :=
  List.forall_mem_append.1 h

variable (frozen) in
mutual
/-- the words of the sequence with strings in the place of its splits are those of its tokens, with
one string in the place of the tokens of each split -/
theorem exists_freezes : ∀ {items : List Item} {ts : List (Token × Bool)} (skip : Nat),
    SpansAll (items.drop skip) ts → (∀ t ∈ ts, Ready known t) → ∀ (afterDot : Bool)
    (found : List Split), scanFrom afterDot skip items = .ok found → (∀ s ∈ found, s ∈ known) →
    ∃ ws, Freezes frozen known (visitFrom known afterDot skip items) ts ws ∧
    SpellsAll (freezeFrom frozen known afterDot skip items) ws
  | [], ts, skip, h, _ => by
    intro afterDot found _ _
    rw [List.drop_nil] at h
    obtain rfl := h
    exact ⟨[], by rw [visitFrom]; exact .nil, by rw [freezeFrom]; rfl⟩
  | i :: r, ts, skip + 1, h, hready => by
    intro afterDot found hfound hknown
    rw [scanFrom] at hfound
    rw [visitFrom, freezeFrom]
    exact exists_freezes skip h hready false found hfound hknown
  | i :: r, ts, 0, h, hready => by
    intro afterDot found hfound hknown
    have ih : ∀ {ts : List (Token × Bool)} (skip : Nat), SpansAll (r.drop skip) ts →
        (∀ t ∈ ts, Ready known t) → ∀ (afterDot : Bool) (found : List Split),
        scanFrom afterDot skip r = .ok found → (∀ s ∈ found, s ∈ known) →
        ∃ ws, Freezes frozen known (visitFrom known afterDot skip r) ts ws ∧
          SpellsAll (freezeFrom frozen known afterDot skip r) ws :=
      fun skip h => exists_freezes skip h
    rw [List.drop_zero] at h
    rcases scanFrom_cases hfound with ⟨n, last, rest, hmeta, hrest, rfl⟩ |
      ⟨own, inner, rest, hmeta, -, hinner, hrest, rfl⟩
    · obtain ⟨himport, hmember⟩ := metaAt?_eq_some hmeta
      obtain ⟨-, init, hr, -, -⟩ := metaMember?_eq_some hmember
      rw [hr, show i :: (init ++ last :: r.drop n) = (i :: (init ++ [last])) ++ r.drop n by simp]
        at h
      obtain ⟨ts₁, ts₂, hsplit, hbehind, rfl⟩ := spansAll_append_iff.1 h
      obtain ⟨hready₁, hready₂⟩ := List.forall_mem_append.1 hready
      obtain ⟨hown, hknown⟩ := forall_append hknown
      obtain ⟨s, hs⟩ := exists_between .metaUrl hsplit
      have hmem : s ∈ between .metaUrl i last := by simp [hs]
      have hfills := fills_of_metaMember? himport hmember hsplit hready₁ hmem (hown s hmem)
      obtain ⟨ws, hws, hspells⟩ := ih n hbehind hready₂ false rest hrest hknown
      obtain ⟨_, _, hi, -, hts⟩ := hsplit
      obtain ⟨m, rfl⟩ := Item.exists_of_isName himport
      obtain ⟨token, newline, -, -, rfl, rfl⟩ := hi
      obtain rfl := hts
      rw [visitFrom_member hmeta, freezeFrom_member hmeta, hs]
      refine ⟨_, .fill (hown s hmem) hfills hws, ?_⟩
      exact ⟨_, ws, ⟨rfl, rfl⟩, hspells, by simp [Item.mark, Item.spanMark, Piece.Kind.tokenKind]⟩
    · obtain ⟨ts₁, ts₂, hi, hr, rfl⟩ := h
      obtain ⟨hready₁, hready₂⟩ := List.forall_mem_append.1 hready
      obtain ⟨hknown, hknownRest⟩ := forall_append hknown
      obtain ⟨ws₁, hws₁, hspells₁⟩ :=
        exists_freezes_visit hi hready₁ inner hinner (forall_append hknown).2
      obtain ⟨ws₂, hws₂, hspells₂⟩ := ih 0 hr hready₂ _ rest hrest hknownRest
      rw [visitFrom_other hmeta, freezeFrom_other hmeta]
      exact ⟨ws₁ ++ ws₂, hws₁.append hws₂, ws₁, ws₂, hspells₁, hspells₂, rfl⟩

theorem exists_freezes_visit : ∀ {i : Item} {ts : List (Token × Bool)}, Spans i ts →
    (∀ t ∈ ts, Ready known t) → ∀ found : List Split, scanInside i = .ok found →
    (∀ s ∈ found, s ∈ known) → ∃ ws, Freezes frozen known (visit known i) ts ws ∧
    Spells (freeze frozen known i) ws
  | .leaf k t m, ts, h, hready => by
    intro found _ _
    obtain ⟨token, newline, hk, rfl, rfl, rfl⟩ := h
    obtain ⟨hleaf, hkind⟩ := Piece.Kind.leafKind?_eq_some.1 hk
    rw [visit, freeze]
    split_ifs with hstring
    · cases hs : ofString? known (Item.spanMark token token newline) with
      | none => exact ⟨_, .keep _ .nil, hleaf, by rw [Word.ofToken, hkind]; rfl⟩
      | some s =>
        obtain ⟨range, hrange, rfl, hmem⟩ := eq_of_ofString? hs
        obtain rfl := Option.some.inj hrange
        subst hstring
        exact ⟨_, freezes_single hmem (fills_of_string hkind (hready _ (by simp)) rfl rfl),
          hleaf, rfl⟩
    · exact ⟨_, .keep _ .nil, hleaf, by rw [Word.ofToken, hkind]; rfl⟩
  | .group b items m c, ts, h, hready => by
    intro found hfound hknown
    obtain ⟨first, newline, inner, last, hfirst, hlast, rfl, hinner, rfl⟩ := h
    obtain ⟨hready₁, hready⟩ := List.forall_mem_cons.1 hready
    obtain ⟨hready₂, hready₃⟩ := List.forall_mem_append.1 hready
    rw [scanInside] at hfound
    obtain ⟨ws, hws, hspells⟩ := exists_freezes 0 hinner hready₂ false found hfound hknown
    rw [visit, freeze]
    refine ⟨_, .keep _ (by simpa using hws.append (freezes_self [(last, c)])), ws, hspells, ?_⟩
    rw [ofToken_open hfirst hready₁.1, ofToken_close hlast (List.forall_mem_singleton.1 hready₃).1]
    rfl
  | .template q [] m, ts, h, hready => by
    intro found _ _
    obtain ⟨token, newline, hk, rfl, rfl, rfl⟩ := h
    rw [visit, visitRest, freeze, freezeRest]
    refine ⟨_, .keep _ .nil, [], rfl, ?_⟩
    rw [ofToken_quasi hk (List.forall_mem_singleton.1 hready).1]
    rfl
  | .template q (part :: rest) m, ts, h, hready => by
    intro found hfound hknown
    obtain ⟨first, newline, inner, last, hk, rfl, rfl, hrest, rfl⟩ := h
    obtain ⟨hready₁, hready⟩ := List.forall_mem_cons.1 hready
    rw [scanInside] at hfound
    obtain ⟨ws, hws, hspells⟩ := exists_freezes_visitRest hrest hready found hfound hknown
    rw [visit, freeze]
    refine ⟨_, .keep _ hws, ws, hspells, ?_⟩
    rw [ofToken_head hk hready₁.1]
    obtain ⟨items, q'⟩ := part
    rfl
  | .block _ _ _, _, _, _ => by
    intro found hfound
    rw [scanInside] at hfound
    cases hfound

theorem exists_freezes_visitRest :
    ∀ {rest : List (List Item × Text)} {ts : List (Token × Bool)} {last : Token},
    SpansRest rest ts last → (∀ t ∈ ts, Ready known t) →
    ∀ found : List Split, scanRest rest = .ok found → (∀ s ∈ found, s ∈ known) →
    ∃ ws, Freezes frozen known (visitRest known rest) ts ws ∧
    SpellsRest (freezeRest frozen known rest) ws
  | [], _, _, h, _ => h.elim
  | [(items, q)], ts, last, h, hready => by
    intro found hfound hknown
    obtain ⟨inner, newline, hinner, hk, rfl, rfl⟩ := h
    obtain ⟨hready₁, hready₂⟩ := List.forall_mem_append.1 hready
    obtain ⟨first, more, hfirst, -, rfl⟩ := scanRest_cons_eq_ok.1 hfound
    obtain ⟨ws, hws, hspells⟩ :=
      exists_freezes 0 hinner hready₁ false first hfirst (forall_append hknown).1
    rw [visitRest, visitRest, freezeRest, freezeRest]
    refine ⟨_, hws.append (freezes_self [(last, newline)]), ws, newline, [], hspells, rfl, ?_⟩
    rw [List.map_singleton, ofToken_tail hk (List.forall_mem_singleton.1 hready₂).1]
    rfl
  | (items, q) :: part :: r, ts, last, h, hready => by
    intro found hfound hknown
    obtain ⟨inner, chunk, newline, more, hinner, hk, rfl, hmore, rfl⟩ := h
    obtain ⟨hready₁, hready⟩ := List.forall_mem_append.1 hready
    obtain ⟨hready₂, hready₃⟩ := List.forall_mem_cons.1 hready
    obtain ⟨first, others, hfirst, hothers, rfl⟩ := scanRest_cons_eq_ok.1 hfound
    obtain ⟨ws₁, hws₁, hspells₁⟩ :=
      exists_freezes 0 hinner hready₁ false first hfirst (forall_append hknown).1
    obtain ⟨ws₂, hws₂, hspells₂⟩ :=
      exists_freezes_visitRest hmore hready₃ others hothers (forall_append hknown).2
    rw [visitRest, freezeRest]
    refine ⟨_, hws₁.append (.keep (chunk, newline) hws₂), ws₁, newline, ws₂, hspells₁, hspells₂, ?_⟩
    rw [ofToken_middle hk hready₂.1]
    obtain ⟨items', q'⟩ := part
    rfl
end

end Split

end Relocation
