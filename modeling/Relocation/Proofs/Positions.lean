import Relocation.Proofs.Gaps
import Relocation.Proofs.Refusal

/-!
# Positions

`Position.behind` counts the line terminators of a whole text, and the characters behind the last of
them.  The positions of tokens are added up lexeme by lexeme instead; the two agree as no lexeme
ends between a CR and its LF (`Reads.seam`, `Position.advance_behind`).
-/

namespace Relocation

/-! ## counting lines -/

namespace Text

/-- does a line terminator end with the character at the offset?  A CR before an LF ends none: the
LF does. -/
def endsLineAt (t : Text) (i : Nat) : Bool :=
  t[i]?.any (·.isLineTerminator) && !(t[i]? = some (.char '\r') && t[i + 1]? = some (.char '\n'))

/-- the offsets behind the line terminators of a text -/
def lineEnds (t : Text) : List Nat := ((List.range t.length).filter (endsLineAt t)).map (· + 1)

/-- no CR is parted from its LF where the texts meet -/
def Seam (a b : Text) : Prop := a.getLast? = some (.char '\r') → b.head? ≠ some (.char '\n')

variable {a b : Text} {c : CodePoint}

theorem Seam.of_getLast? (h : a.getLast? ≠ some (.char '\r')) : Seam a b :=
  fun hlast => absurd hlast h

theorem Seam.append_left {w : Text} (hw : w ≠ []) (h : Seam w b) : Seam (a ++ w) b := by
  intro hlast
  rw [List.getLast?_append_of_ne_nil _ hw] at hlast
  exact h hlast

theorem endsLineAt_append_left (h : Seam a b) {i : Nat} (hi : i < a.length) :
    endsLineAt (a ++ b) i = endsLineAt a i := by
  rw [endsLineAt, endsLineAt, List.getElem?_append_left hi]
  rcases Nat.lt_or_ge (i + 1) a.length with hnext | hnext
  · rw [List.getElem?_append_left hnext]
  · -- the last character: what comes next is the first one of `b`
    obtain rfl : i = a.length - 1 := by omega
    have hlen : a.length - 1 + 1 = a.length := by omega
    rw [hlen, List.getElem?_append_right (Nat.le_refl _), Nat.sub_self,
      List.getElem?_eq_none (Nat.le_refl _), ← List.head?_eq_getElem?, ← List.getLast?_eq_getElem?]
    by_cases hlast : a.getLast? = some (.char '\r')
    · simp [h hlast]
    · simp [hlast]

theorem endsLineAt_append_right (i : Nat) :
    endsLineAt (a ++ b) (a.length + i) = endsLineAt b i := by
  rw [endsLineAt, endsLineAt, List.getElem?_append_right (by omega),
    List.getElem?_append_right (by omega), Nat.add_sub_cancel_left, Nat.add_assoc,
    Nat.add_sub_cancel_left]

/-- lines are counted part by part -/
theorem lineEnds_append (h : Seam a b) :
    lineEnds (a ++ b) = lineEnds a ++ (lineEnds b).map (a.length + ·) := by
  have hleft :
      (List.range a.length).filter (endsLineAt (a ++ b)) =
        (List.range a.length).filter (endsLineAt a) :=
    List.filter_congr fun i hi => endsLineAt_append_left h (List.mem_range.1 hi)
  have hright : endsLineAt (a ++ b) ∘ (a.length + ·) = endsLineAt b :=
    funext endsLineAt_append_right
  rw [lineEnds, List.length_append, List.range_add, List.filter_append, List.map_append, hleft,
    List.filter_map, hright]
  simp [lineEnds, Nat.add_assoc]

theorem lineEnds_singleton (c : CodePoint) : lineEnds [c] = if c.isLineTerminator then [1]
    else [] := by
  simp only [lineEnds, List.length_singleton, List.range_one, endsLineAt, List.filter_cons,
    List.filter_nil]
  cases hc : c.isLineTerminator <;> simp [hc]

theorem le_of_mem_lineEnds {n : Nat} (h : n ∈ lineEnds a) : n ≤ a.length := by
  obtain ⟨i, hi, rfl⟩ := List.mem_map.1 h
  exact List.mem_range.1 (List.mem_filter.1 hi).1

end Text

namespace Position

open Text

/-- the position behind a text as a reader counts it -/
def behind (t : Text) : Position where
  offset := t.length
  line := 1 + (lineEnds t).length
  column := 1 + (t.length - (lineEnds t).getLast?.getD 0)

variable {p : Position} {a b : Text} {c : CodePoint}

@[simp] theorem behind_nil : behind [] = start := rfl

theorem behind_append_terminator {w : Text} (h : Seam a w) (hw : lineEnds w = [w.length]) :
    behind (a ++ w) = (behind a).nextLine w.length := by
  simp [behind, nextLine, lineEnds_append h, hw, Nat.add_assoc]

theorem behind_append_char (hc : c.isLineTerminator = false) :
    behind (a ++ [c]) = (behind a).right := by
  have hfeed : Seam a [c] := by
    rintro - hhead
    obtain rfl := Option.some.inj hhead
    exact absurd hc (by decide)
  have hends : lineEnds (a ++ [c]) = lineEnds a := by
    simp [lineEnds_append hfeed, lineEnds_singleton, hc]
  have hle : (lineEnds a).getLast?.getD 0 ≤ a.length := by
    cases hlast : (lineEnds a).getLast? with
    | none => exact Nat.zero_le _
    | some n => exact le_of_mem_lineEnds (List.mem_of_getLast? hlast)
  simp only [behind, right, hends, List.length_append, List.length_singleton,
    Position.mk.injEq, true_and]
  omega

/-- going on over a text from the end of another one is counting the lines of both -/
theorem advance_behind (h : Seam a b) : (behind a).advance b = behind (a ++ b) := by
  generalize hp : behind a = p
  fun_induction advance p b generalizing a with
  | case1 p => rw [← hp, List.append_nil]
  | case2 p r ih =>
    have hpair : Seam a [.char '\r', .char '\n'] := fun _ => by simp
    have hnext : Seam (a ++ [.char '\r', .char '\n']) r :=
      Seam.append_left (by simp) (.of_getLast? (by simp))
    rw [ih hnext (by rw [behind_append_terminator hpair (by decide), hp]; rfl), List.append_assoc]
    rfl
  | case3 p c r hpair ih =>
    have hfirst : Seam a [c] := fun hlast hc => h hlast (by simpa using hc)
    have hnext : Seam (a ++ [c]) r := by
      refine Seam.append_left (by simp) fun hlast hhead => ?_
      obtain ⟨r', rfl⟩ := List.head?_eq_some_iff.1 hhead
      exact hpair r' (Option.some.inj hlast) rfl
    have hstep : behind (a ++ [c]) = if c.isLineTerminator then p.nextLine 1 else p.right := by
      cases hc : c.isLineTerminator with
      | true =>
        rw [behind_append_terminator hfirst (by rw [lineEnds_singleton, if_pos hc]; rfl), hp]; rfl
      | false => rw [behind_append_char hc, hp]; rfl
    rw [ih hnext hstep, List.append_assoc]
    rfl

end Position

/-! ## how lexemes end -/

namespace Lexical

variable {t : Text}

theorem getLast?_ne_of_all {p : CodePoint → Bool} (hp : p (.char '\r') = false)
    (h : t.all p = true) : t.getLast? ≠ some (.char '\r') := by
  intro hlast
  rw [List.all_eq_true.1 h _ (List.mem_of_getLast? hlast)] at hp
  cases hp

/-- a string ends with its quote -/
theorem stringLength?_take {quote : CodePoint} : ∀ {n : Nat}, stringLength? quote t = some n →
    ∃ q, t.take n = q ++ [quote] := by
  fun_induction stringLength? quote t with
  | case1 => intro n h; cases h
  | case2 t ih =>
    intro n h
    obtain ⟨m, hm, rfl⟩ := Option.map_eq_some_iff.1 h
    obtain ⟨q, hq⟩ := ih hm
    exact ⟨.char '\\' :: .char '\r' :: .char '\n' :: q, by simp [hq]⟩
  | case3 x t hx ih =>
    intro n h
    obtain ⟨m, hm, rfl⟩ := Option.map_eq_some_iff.1 h
    obtain ⟨q, hq⟩ := ih hm
    exact ⟨.char '\\' :: x :: q, by simp [hq]⟩
  | case4 t => intro n h; cases h; exact ⟨[], rfl⟩
  | case5 => intro n h; cases h
  | case6 c t h1 h2 hq hnl ih =>
    intro n h
    obtain ⟨m, hm, rfl⟩ := Option.map_eq_some_iff.1 h
    obtain ⟨q, hq⟩ := ih hm
    exact ⟨c :: q, by simp [hq]⟩

/-- a regular expression ends with a slash and its flags -/
theorem regexLength?_take {inClass : Bool} : ∀ {n : Nat}, regexLength? inClass t = some n →
    ∃ q flags, t.take n = q ++ .char '/' :: flags ∧ flags.all isFlag = true := by
  fun_induction regexLength? inClass t with
  | case1 => intro n h; cases h
  | case2 inClass x t ih =>
    intro n h
    obtain ⟨m, hm, rfl⟩ := Option.map_eq_some_iff.1 h
    obtain ⟨q, flags, hq, hflags⟩ := ih hm
    exact ⟨.char '\\' :: x :: q, flags, by simp [hq], hflags⟩
  | case3 => intro n h; cases h
  | case4 inClass t h1 hl ih =>
    intro n h
    obtain ⟨m, hm, rfl⟩ := Option.map_eq_some_iff.1 h
    obtain ⟨q, flags, hq, hflags⟩ := ih hm
    exact ⟨.char '[' :: q, flags, by simp [hq], hflags⟩
  | case5 inClass t h1 hl h2 ih =>
    intro n h
    obtain ⟨m, hm, rfl⟩ := Option.map_eq_some_iff.1 h
    obtain ⟨q, flags, hq, hflags⟩ := ih hm
    exact ⟨.char ']' :: q, flags, by simp [hq], hflags⟩
  | case6 inClass c t h1 hl h2 h3 hc =>
    intro n h
    cases h
    simp only [Bool.and_eq_true, decide_eq_true_eq] at hc
    obtain ⟨rfl, -⟩ := hc
    exact ⟨[], t.take (runLength isFlag t), by simp [Nat.add_comm 1], (runLength_take isFlag t).2.1⟩
  | case7 inClass c t h1 hl h2 h3 hc ih =>
    intro n h
    obtain ⟨m, hm, rfl⟩ := Option.map_eq_some_iff.1 h
    obtain ⟨q, flags, hq, hflags⟩ := ih hm
    exact ⟨c :: q, flags, by simp [hq], hflags⟩

/-- no number ends with a CR -/
theorem getLast?_of_numberLength {rest : Text} (h : numberLength (t ++ rest) = t.length) :
    t.getLast? ≠ some (.char '\r') := by
  intro hlast
  obtain ⟨q, rfl⟩ := List.getLast?_eq_some_iff.1 hlast
  have hbounded : Bounded (.char '\r' :: rest) := by
    intro c hc
    obtain rfl := Option.some.inj hc
    decide
  rw [List.append_assoc, List.singleton_append, numberLength_append_of_bounded hbounded] at h
  have := numberLength_le q
  simp only [List.length_append, List.length_singleton] at h
  omega

theorem IsFiller.seam {rest : Text} (h : IsFiller rest t) : Text.Seam t rest := by
  cases h with
  | blanks hne hall hstop => exact .of_getLast? (getLast?_ne_of_all (by decide) hall)
  | lineEnd hc hpair => exact fun hlast => hpair (Option.some.inj hlast)
  | lineEndPair => exact .of_getLast? (by simp)
  | @lineComment t hall hstop =>
    have hall :
        (CodePoint.char '/' :: .char '/' :: t).all (fun c => !c.isLineTerminator) = true := by
      rw [List.all_cons, List.all_cons, hall]
      decide
    exact .of_getLast? (getLast?_ne_of_all (by decide) hall)
  | blockComment hfirst => exact .of_getLast? (by simp [List.getLast?_cons])

end Lexical

namespace Token.Context

open Text Lexical

variable {ctx : Context} {c : CodePoint} {t rest : Text} {kind : Kind} {f : Front}

/-- no token ends with a CR -/
theorem Reads.getLast?_ne (h : Reads ctx c (t ++ rest) (.token kind) t.length) :
    (c :: t).getLast? ≠ some (.char '\r') := by
  generalize hn : t.length = n at h
  generalize hr : t ++ rest = r at h
  generalize hf : Front.token kind = f at h
  cases h with
  | blanks => cases hf
  | terminator => cases hf
  | line => cases hf
  | comment => cases hf
  | bracket hk =>
    obtain rfl := List.length_eq_zero_iff.1 hn
    intro hlast
    obtain rfl := Option.some.inj hlast
    exact absurd hk (by simp [bracketKind?])
  | closeBrace hc hb =>
    obtain rfl := List.length_eq_zero_iff.1 hn
    subst hc
    decide
  | resume hc hb hm =>
    obtain ⟨q, hq⟩ := templateLength?_take hm
    rw [← hr, ← hn, List.take_left] at hq
    subst hq
    split <;> simp [Text.ofString, List.getLast?_cons]
  | template hc hm =>
    obtain ⟨q, hq⟩ := templateLength?_take hm
    rw [← hr, ← hn, List.take_left] at hq
    subst hq
    split <;> simp [Text.ofString, List.getLast?_cons]
  | string hc hm =>
    obtain ⟨q, hq⟩ := stringLength?_take hm
    rw [← hr, ← hn, List.take_left] at hq
    subst hq
    rcases hc with rfl | rfl <;> simp [List.getLast?_cons]
  | number hc ho hm =>
    subst hr hn
    exact getLast?_of_numberLength hm
  | word hc hd hs =>
    subst hr
    have hall : (c :: t).all isNamePart = true := by
      rw [List.all_cons, isNamePart_of_isNameStart hs, (runLength_append.1 hn.symm).1]
      rfl
    exact getLast?_ne_of_all (by decide) hall
  | hidden hc hh =>
    subst hr
    have hall : (c :: t).all (fun c => c = .char '#' || isNamePart c) = true := by
      have ht := List.all_eq_true.1 (runLength_append.1 hn.symm).1
      rw [List.all_cons, List.all_eq_true.2 fun d hd => by simp [ht d hd]]
      simp [hc]
    exact getLast?_ne_of_all (by decide) hall
  | regex hc ho hs hm =>
    obtain ⟨q, flags, hq, hflags⟩ := regexLength?_take hm
    rw [← hr, ← hn, List.take_left] at hq
    subst hq
    rw [← List.cons_append, List.getLast?_append_of_ne_nil _ (by simp)]
    have hall : (CodePoint.char '/' :: flags).all (fun c => c = .char '/' || isFlag c) = true := by
      rw [List.all_cons, List.all_eq_true.2 fun d hd => by simp [List.all_eq_true.1 hflags d hd]]
      simp
    exact getLast?_ne_of_all (by decide) hall
  | slash hc ho hs =>
    subst hc hr
    split at hn
    · obtain ⟨d, rfl⟩ := List.length_eq_one_iff.1 hn
      simp_all
    · obtain rfl := List.length_eq_zero_iff.1 hn
      decide
  | punct ho hm =>
    have hmem := (punctuatorLength?_eq_some hm).2.2
    rw [List.take_succ_cons, ← hr, ← hn, List.take_left] at hmem
    have hall : ∀ q ∈ punctuators, q.getLast? ≠ some (.char '\r') := by decide
    exact hall _ hmem

/-- a lexeme never parts a CR from its LF -/
theorem Reads.seam (h : Reads ctx c (t ++ rest) f t.length) : Seam (c :: t) rest := by
  cases f with
  | gap => exact h.isFiller.seam
  | token kind => exact .of_getLast? h.getLast?_ne

end Token.Context

/-! ## positions in a source -/

/-- the position is where a reader of the source counts to -/
def Position.Exact (source : Text) (p : Position) : Prop := p = .behind (source.take p.offset)

theorem Position.exact_behind (front rest : Text) : (behind front).Exact (front ++ rest) := by
  show behind front = behind ((front ++ rest).take front.length)
  rw [List.take_left]

/-- the context behind tokens -/
def Token.Context.behind (ts : List Token) : Token.Context :=
  ts.foldl (fun ctx k => ctx.after k.kind k.text) {}

/-- what a refusal is reported as -/
def Token.Context.Refusal.failure (p : Position) : Token.Context.Refusal → Failure
  | .fault f => .sourceAt p f
  | .strayDigit => .strayDigit

namespace Lexeme

open Text

variable {ctx : Token.Context} {l : Lexeme} {ls : List Lexeme} {front rest : Text} {p : Position}

theorem contextAfter_eq_foldl :
    contextAfter ctx ls = (tokens p ls).foldl (fun ctx k => ctx.after k.kind k.text) ctx := by
  induction ls generalizing ctx p with
  | nil => rfl
  | cons l ls ih =>
    rw [contextAfter, context, tokens]
    cases l.front with
    | gap => exact ih
    | token kind => exact ih

/-- the step over one lexeme -/
theorem advance_of_stands (h : l.Stands ctx rest) (hseam : Seam front (l.text ++ rest)) :
    (Position.behind front).advance l.text = .behind (front ++ l.text) ∧
    Seam (front ++ l.text) rest := by
  obtain ⟨c, t, ht, hread⟩ := h
  rw [ht] at hseam ⊢
  exact ⟨Position.advance_behind hseam, Seam.append_left (by simp) hread.seam⟩

theorem stop_of_cuts (h : Cuts ctx ls rest) (hseam : Seam front (textOf ls ++ rest)) :
    stop (.behind front) ls = .behind (front ++ textOf ls) := by
  induction ls generalizing ctx front with
  | nil => rw [stop, textOf_nil, List.append_nil]
  | cons l ls ih =>
    rw [textOf_cons, List.append_assoc] at hseam
    obtain ⟨hadvance, hseam⟩ := advance_of_stands h.1 hseam
    rw [stop, hadvance, ih h.2 hseam, textOf_cons, List.append_assoc]

/-- the tokens among lexemes begin and end at exact positions -/
theorem exact_of_mem_tokens (h : Cuts ctx ls rest) (hseam : Seam front (textOf ls ++ rest)) :
    ∀ k ∈ tokens (.behind front) ls,
      k.start.Exact (front ++ (textOf ls ++ rest)) ∧
      k.stop.Exact (front ++ (textOf ls ++ rest)) := by
  induction ls generalizing ctx front with
  | nil => intro k hk; cases hk
  | cons l ls ih =>
    rw [textOf_cons, List.append_assoc] at hseam
    have hfirst := Position.exact_behind front (l.text ++ (textOf ls ++ rest))
    have hlast := Position.exact_behind (front ++ l.text) (textOf ls ++ rest)
    obtain ⟨hadvance, hseam⟩ := advance_of_stands h.1 hseam
    have ih := ih h.2 hseam
    rw [List.append_assoc] at hlast ih
    intro k hk
    rw [tokens, hadvance] at hk
    rw [textOf_cons, List.append_assoc]
    cases hl : l.front with
    | gap =>
      rw [hl] at hk
      exact ih k hk
    | token kind =>
      rw [hl] at hk
      rcases List.mem_cons.1 hk with rfl | hk
      · exact ⟨hfirst, hlast⟩
      · exact ih k hk

end Lexeme

namespace TokenStream

open Text

theorem seam_interpreterLine (source rest : Text) : Seam (interpreterLine source) rest := by
  refine .of_getLast? ?_
  unfold interpreterLine
  split
  · exact Lexical.getLast?_ne_of_all (p := fun c => !c.isLineTerminator) (by decide)
      List.all_takeWhile
  · decide

/-- The lexemes of a text, where its tokens come from, and what is left of it.  Something is left
just where cutting ends early, and there it is refused. -/
theorem exists_lexemes (source : Text) : ∃ ls rest stopped,
    source = interpreterLine source ++ (Lexeme.textOf ls ++ rest) ∧ Lexeme.Cuts {} ls rest ∧
      (ofText source).tokens = Lexeme.tokens (.behind (interpreterLine source)) ls ∧
      (ofText source).failure =
        stopped.map (·.failure (.behind (interpreterLine source ++ Lexeme.textOf ls))) ∧
      (stopped = none ↔ rest = []) ∧
      ∀ e ∈ stopped, ∃ c r, rest = c :: r ∧
      (Token.Context.behind (ofText source).tokens).Refuses c r e := by
  obtain ⟨t, hsource, hcut⟩ := Lexeme.exists_cut source
  rw [textOf_hashbang] at hsource
  cases hrest : Lexeme.cutFrom {} 0 t with
  | mk ls stopped =>
    rw [hrest] at hcut
    obtain ⟨rest, rfl, hcuts, hstopped⟩ := Lexeme.cuts_of_cutFrom_eq hrest
    have hline :
        Lexeme.stop .start (Lexeme.hashbang source) = .behind (interpreterLine source) := by
      have hadvance :
          Position.start.advance (interpreterLine source) = .behind (interpreterLine source) :=
        Position.advance_behind (a := []) (fun h => by cases h)
      rw [← hadvance, ← textOf_hashbang]
      unfold Lexeme.hashbang
      split
      · simp [Lexeme.stop]
      · rfl
    have htokens :
        (ofText source).tokens = Lexeme.tokens (.behind (interpreterLine source)) ls := by
      rw [ofText, hcut, ← hline]
      exact Lexeme.tokens_gaps (Lexeme.hashbang_gap source)
    have hstop :
        Lexeme.stop .start (Lexeme.cut source).1 = .behind (interpreterLine source ++
          Lexeme.textOf ls) := by
      rw [hcut, Lexeme.stop_append, hline,
        Lexeme.stop_of_cuts hcuts (seam_interpreterLine source _)]
    refine ⟨ls, rest, stopped, hsource.symm, hcuts, htokens, ?_, hstopped, ?_⟩
    · rw [← hstop, ofText, hcut]
      cases stopped <;> rfl
    · rintro e rfl
      obtain ⟨c, r, htext, -, hrefuses⟩ := Lexeme.cuts_of_cutFrom_error hrest
      refine ⟨c, r, List.append_cancel_left htext, ?_⟩
      rw [Token.Context.behind, htokens, ← Lexeme.contextAfter_eq_foldl]
      exact hrefuses

/-- the tokens of a text tile it, up to what is left of it -/
theorem tiles_of_lexemes {source rest : Text} {ls : List Lexeme}
    (hsource : source = interpreterLine source ++ (Lexeme.textOf ls ++ rest))
    (hcuts : Lexeme.Cuts {} ls rest)
    (htokens : (ofText source).tokens = Lexeme.tokens (.behind (interpreterLine source)) ls) :
    Token.Tiles source (interpreterLine source).length rest (ofText source).tokens := by
  have hpaves : Token.Paves rest (interpreterLine source).length (Lexeme.textOf ls ++ rest) _ :=
    Lexeme.paves_tokens (.behind (interpreterLine source)) hcuts
  have htiles := hpaves.tiles
  rwa [← hsource, ← htokens] at htiles

/-- Tokens begin and end at exact positions.  A lexical fault has the exact position of what is
refused: behind the tokens and the gaps among them. -/
theorem positions_ofText (source : Text) :
    (∀ k ∈ (ofText source).tokens, k.start.Exact source ∧ k.stop.Exact source) ∧
      ∀ e, (ofText source).failure = some (.source e) → ∃ (p : Position) (c : CodePoint) (r : Text),
        p.Exact source ∧ source.drop p.offset = c :: r ∧ e.place = some (p.line, p.column) ∧
          Token.Tiles source (interpreterLine source).length (c :: r) (ofText source).tokens ∧
          (Token.Context.behind (ofText source).tokens).Refuses c r (.fault e.fault) := by
  obtain ⟨ls, rest, stopped, hsource, hcuts, htokens, hfailure, -, hrefused⟩ :=
    exists_lexemes source
  constructor
  · intro k hk
    rw [htokens] at hk
    rw [hsource]
    exact Lexeme.exact_of_mem_tokens hcuts (seam_interpreterLine source _) k hk
  · intro e he
    rw [hfailure] at he
    obtain ⟨refusal, rfl, hreport⟩ := Option.map_eq_some_iff.1 he
    cases refusal with
    | strayDigit => cases hreport
    | fault f =>
      obtain rfl := Failure.source.inj hreport
      obtain ⟨c, r, rfl, hrefuses⟩ := hrefused _ rfl
      have htiles := tiles_of_lexemes hsource hcuts htokens
      rw [← List.append_assoc] at hsource
      refine ⟨.behind (interpreterLine source ++ Lexeme.textOf ls), c, r, ?_, ?_, rfl,
        htiles, hrefuses⟩
      · have := Position.exact_behind (interpreterLine source ++ Lexeme.textOf ls) (c :: r)
        rwa [← hsource] at this
      · have : ((interpreterLine source ++ Lexeme.textOf ls) ++ c :: r).drop
            (interpreterLine source ++ Lexeme.textOf ls).length = c :: r := List.drop_left
        rwa [← hsource] at this

/-- a line for an interpreter, a template over three lines, and a string that is not closed -/
def broken : Text := "#!x\r\n\x60\r\r\n$\x7bb\u2028 'c"

theorem positions_ofText_broken :
    (∃ k ∈ (ofText broken).tokens, k.start = ⟨5, 2, 1⟩ ∧ k.stop = ⟨11, 4, 3⟩ ∧
      k.start.Exact broken ∧ k.stop.Exact broken) ∧
    (ofText broken).failure = some (.source ⟨.unterminatedString, some (5, 2)⟩) ∧
    ∃ (p : Position) (c : CodePoint) (r : Text), p.Exact broken ∧ broken.drop p.offset = c :: r ∧
      some (5, 2) = some (p.line, p.column) ∧
      Token.Tiles broken (interpreterLine broken).length (c :: r) (ofText broken).tokens ∧
      (Token.Context.behind (ofText broken).tokens).Refuses c r (.fault .unterminatedString) := by
  have hsome :
      (ofText broken).tokens.any (fun k => k.start = ⟨5, 2, 1⟩ && k.stop = ⟨11, 4, 3⟩) = true := by
    decide +kernel
  have hfailure : (ofText broken).failure = some (.source ⟨.unterminatedString, some (5, 2)⟩) := by
    decide +kernel
  obtain ⟨k, hk, hplace⟩ := List.any_eq_true.1 hsome
  simp only [Bool.and_eq_true, decide_eq_true_eq] at hplace
  obtain ⟨hexact, hfaults⟩ := positions_ofText broken
  exact ⟨⟨k, hk, hplace.1, hplace.2, hexact k hk⟩, hfailure, hfaults _ hfailure⟩

end TokenStream

end Relocation
