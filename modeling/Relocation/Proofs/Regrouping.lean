import Relocation.Proofs.Keywords
import Relocation.Proofs.Layout
import Relocation.Proofs.Rules
import Relocation.Proofs.Scraps

/-!
# Words that are cut anew

Loose punctuators that are printed side by side, and a number behind the last of their points, are
gathered into one text, and this is cut into scraps.  All other words are cut as they are
(`Piece.cuts_legible`): what comes behind a gathered text does not tell it from the words it was
made of, unless a number has lost its last point and a slash follows.  `Regroups` relates the words
to the words that are read.
-/

namespace Relocation

open Token.Context Lexical

namespace Word

/-- a punctuator that may run into what follows -/
def isLoose (w : Word) : Bool := w.kind = .punct && w.text.all Lexical.isLoose

/-- may the word be cut anew? -/
def isGathered (w : Word) : Bool := w.isLoose || w.kind = .number

/-- neighbours that are read as a block, or as a number without its last point before a regular
expression -/
def Misread (tr : Trail) (w w' : Word) : Prop :=
  (w.kind = .name ∧ w.text = Text.ofString "module" ∧ tr.member = false ∧ w'.kind = .openBrace ∧
    w'.newline = false) ∨ (w.kind = .number ∧ w.text.getLast? = some (.char '.') ∧
      w.newline = false ∧ tr.points ≠ 0 ∧ w'.kind = .punct ∧
      w'.text.head? = some (.char '/'))

/-- the words can be read one after the other, and no block begins among them -/
def Legible (tr : Trail) : List Word → Prop
  | [] => True
  | w :: r => w.kind ≠ .module ∧ (∀ w' ∈ r.head?, ¬ Misread tr w w') ∧ Legible (tr.behind w) r

/-- a word that gathered words are cut into -/
structure IsScrap (w : Word) : Prop where
  kind : w.kind = .punct ∨ w.kind = .number ∨ w.kind = .name
  chars : ∀ c ∈ w.text, Lexical.isLoose c = true ∨ isNumeric c = true

end Word

namespace Trail

/-- behind words -/
def behindAll (tr : Trail) (ws : List Word) : Trail := ws.foldl behind tr

theorem dot_behind (tr : Trail) (w : Word) : (tr.behind w).dot = w.isMemberDot := rfl

theorem dot_behindAll {tr : Trail} {ctx : Token.Context} {ws : List Word}
    (h : tr.dot = ctx.namesMember) : (tr.behindAll ws).dot = (ctx.afterAll ws).namesMember := by
  induction ws generalizing tr ctx with
  | nil => exact h
  | cons w ws ih =>
    rw [behindAll, List.foldl_cons, ← behindAll, Token.Context.afterAll]
    exact ih ((dot_behind tr w).trans (Word.namesMember_after ctx w).symm)

end Trail

/-- The first words are read as the second ones: gathered words as scraps, all others as they are.
`pending` says that words have been gathered and are still to be cut; `tr` and `tr'` are what stands
before. -/
inductive Regroups : (pending : Bool) → (tr tr' : Trail) → List Word → List Word → Prop
  | nil {tr tr' : Trail} : Regroups false tr tr' [] []
  | keep {tr tr' : Trail} {w : Word} {ws out : List Word}
    (hmember : tr.member = true → tr'.dot = true)
    (h : Regroups false (tr.behind w) (tr'.behind w) ws out) :
    Regroups false tr tr' (w :: ws) (w :: out)
  | gather {pending : Bool} {tr tr' : Trail} {w : Word} {ws out : List Word}
    (hw : w.isGathered = true) (h : Regroups true (tr.behind w) tr' ws out) :
    Regroups pending tr tr' (w :: ws) out
  | cut {pending : Bool} {tr tr' : Trail} {w : Word} {ws scraps out : List Word}
    (hw : w.isGathered = true) (hne : scraps ≠ []) (hscraps : ∀ s ∈ scraps, s.IsScrap)
    (h : Regroups false (tr.behind w) (tr'.behindAll scraps) ws out) :
    Regroups pending tr tr' (w :: ws) (scraps ++ out)

/-! ## where a gathered text ends -/

namespace Lexical

theorem isLoose_of_within {c d : CodePoint} (hc : isLoose c = true) {q : Text} (hq : q ∈ punctuators)
    (h : [c, d] <:+: q) : isLoose d = true := by
  have hall : ∀ q ∈ punctuators, ∀ c ∈ q, ∀ d ∈ q, [c, d] <:+: q → isLoose c = true →
      isLoose d = true := by
    decide +kernel
  exact hall q hq c (h.subset (by simp)) d (h.subset (by simp)) h hc

/-- a loose punctuator is loose throughout -/
theorem all_isLoose {q : Text} (hq : q ∈ punctuators) {c : CodePoint} (hhead : q.head? = some c)
    (hc : isLoose c = true) : q.all isLoose = true := by
  have hall : ∀ q ∈ punctuators, ∀ c ∈ q.head?, isLoose c = true → q.all isLoose = true := by decide
  exact hall q hq c hhead hc

end Lexical

/-- a token that begins with a loose sign is a number or a loose punctuator -/
theorem Word.isGathered_of_head {w : Word} (hw : Token.Readable w.kind w.text) {c : CodePoint}
    (hhead : w.text.head? = some c) (hc : Lexical.isLoose c = true) : w.isGathered = true := by
  obtain ⟨kind, text, newline⟩ := w
  have hsigns : ∀ c ∈ looseSigns, c ∉ signs ∧ c ≠ .char '/' := by decide
  obtain ⟨hsign, hslash⟩ := hsigns c (by simpa [Lexical.isLoose] using hc)
  obtain ⟨ctx, d, t, rest, htext, hreads⟩ := id hw
  have htext : text = d :: t := htext
  obtain rfl : d = c := by simpa [htext] using hhead
  rcases hreads.punct_of_plain hsign (isLoose_cases hc).2.2.1 with ⟨hk, -⟩ | hk
  · simp [isGathered, show kind = .number from hk]
  · obtain rfl : kind = .punct := hk
    have hmem := Piece.mem_punctuators hw (by simpa [hhead] using hslash)
    simp [isGathered, isLoose, all_isLoose hmem hhead hc]

/-- so is one that begins with a digit -/
theorem Word.number_of_head {w : Word} (hw : Token.Readable w.kind w.text) {c : CodePoint}
    (hhead : w.text.head? = some c) (hc : c.isDigitValued = true) : w.kind = .number := by
  obtain ⟨ctx, d, t, rest, htext, hreads⟩ := hw
  obtain rfl : d = c := by simpa [htext] using hhead
  exact hreads.number_of_digit hc

namespace Word

variable {w : Word}

theorem isLoose_iff :
    w.isLoose = true ↔ w.kind = .punct ∧ ∀ c ∈ w.text, Lexical.isLoose c = true := by
  simp [isLoose]

theorem isGathered_iff : w.isGathered = true ↔ w.isLoose = true ∨ w.kind = .number := by
  simp [isGathered]

theorem chars_of_isGathered (hw : Token.Readable w.kind w.text) (h : w.isGathered = true) :
    ∀ c ∈ w.text, Lexical.isLoose c = true ∨ isNumeric c = true := by
  intro c hc
  rcases isGathered_iff.1 h with h | h
  · exact .inl ((isLoose_iff.1 h).2 c hc)
  · rw [h] at hw
    exact .inr (isNumeric_of_number (numberLength_of_readable hw) c hc)

theorem text_ne_nil (hw : Token.Readable w.kind w.text) : w.text ≠ [] := by
  obtain ⟨_, c, t, _, ht, -⟩ := hw
  rw [ht]
  exact List.cons_ne_nil c t

/-- a loose punctuator is one of the table -/
theorem mem_punctuators_of_isLoose (hw : Token.Readable w.kind w.text) (h : w.isLoose = true) :
    w.text ∈ punctuators := by
  obtain ⟨hkind, hloose⟩ := isLoose_iff.1 h
  rw [hkind] at hw
  exact Piece.mem_punctuators hw fun hslash =>
    absurd (hloose _ (List.mem_of_mem_head? hslash)) (by decide)

end Word

namespace Piece

variable {p q : Piece} {w w' : Word} {a : Text}

/-- the next word is gathered together with the word -/
structure RunsInto (p q : Piece) (w w' : Word) : Prop where
  loose : w.isLoose = true
  beside : p.separator q = []
  next : w'.isGathered = true
  point : w'.kind = .number → w.text.getLast? = some (.char '.')

theorem newline_of_separator (h : p.separator q = []) : q.newline = false := by
  unfold separator at h
  split at h
  · cases h
  · simpa using ‹¬q.newline = true›

/-- a loose punctuator that leans to what follows ends with a point, or is an exclamation mark -/
theorem text_of_leans (hp : p.Prints w) (hloose : w.isLoose = true) (hl : p.leans = true) :
    w.text = Text.ofString "." ∨ w.text = Text.ofString "?." ∨ w.text = Text.ofString "..." ∨
    w.text = Text.ofString "!" := by
  have hall : ∀ t ∈ attachesForward, t.all Lexical.isLoose = true →
      t = Text.ofString "." ∨ t = Text.ofString "?." ∨ t = Text.ofString "..." ∨
      t = Text.ofString "!" := by decide
  obtain ⟨hkind, hchars⟩ := Word.isLoose_iff.1 hloose
  exact hall _ ((leans_iff hp hkind).1 hl) (List.all_eq_true.2 hchars)

/-- what attaches to a loose punctuator that leans to nothing does not go on with it, unless it is
gathered with it -/
theorem head_of_not_leans (hp : p.Prints w) (hloose : w.isLoose = true) (hq : q.Prints w')
    (hs : Token.Shaped w'.kind w'.text) (hruns : ¬ RunsInto p q w w') (hl : p.leans = false)
    (rest : Text) {d : CodePoint} (hd : (p.separator q ++ (q.text ++ rest)).head? = some d) :
    Lexical.isLoose d = false ∧ d.isDigitValued = false := by
  obtain ⟨d', hmem, hhead, hpoint⟩ := head_behind hq hs hl rest
  obtain rfl : d' = d := Option.some.inj (hhead.symm.trans hd)
  rw [attachable_of_punct hp (Word.isLoose_iff.1 hloose).1] at hmem
  have hall : ∀ d ∈ .char ' ' :: .char '\n' :: (closers ++ [.char '.']),
      (Lexical.isLoose d = false ∧ d.isDigitValued = false) ∨ d = .char '.' ∨ d = .char '?' := by
    decide
  refine (hall d' hmem).resolve_right fun h => hruns ?_
  obtain ⟨hnewline, hk, htext⟩ := hpoint h
  have hnext : w'.isLoose = true := by
    rcases htext with htext | htext <;> · rw [Word.isLoose, hk, htext]; decide
  refine ⟨hloose, ?_, Word.isGathered_iff.2 (.inl hnext), by simp [hk]⟩
  have hspaced : ∀ d ∈ [CodePoint.char ' ', .char '\n'], ¬ (d = .char '.' ∨ d = .char '?') := by
    decide
  unfold separator at hd ⊢
  rw [if_neg (by simp [hnewline])] at hd ⊢
  split
  · rw [if_pos ‹_›] at hd
    obtain rfl := Option.some.inj hd
    exact absurd h (hspaced _ (by simp))
  · rfl

/-- behind one that leans to the next word, a number may stand that is not gathered with it -/
theorem head_of_leans (hp : p.Prints w) (hloose : w.isLoose = true) (hq : q.Prints w')
    (hw' : Token.Readable w'.kind w'.text) (hruns : ¬ RunsInto p q w w') (hl : p.leans = true)
    (rest : Text) {d : CodePoint} (hd : (p.separator q ++ (q.text ++ rest)).head? = some d) :
    Lexical.isLoose d = false ∧ d.isDigitValued = false ∨ w.text = Text.ofString "!" ∧
    d ≠ .char '=' := by
  by_cases hnewline : q.newline = true
  · rw [separator, if_pos hnewline] at hd
    obtain rfl := Option.some.inj hd
    exact .inl (by decide)
  have hsep := separator_eq_nil hl (by simpa using hnewline)
  have hhead : w'.text.head? = some d := by
    obtain ⟨_, c, t, _, ht, -⟩ := hw'
    rw [hsep, hq.text, ht] at hd
    rw [ht]
    exact hd
  by_cases hgathered : w'.isGathered = true
  · have hnumber : w'.kind = .number ∧ w.text.getLast? ≠ some (.char '.') := by
      by_contra hcon
      exact hruns ⟨hloose, hsep, hgathered, fun hk => by_contra fun hlast => hcon ⟨hk, hlast⟩⟩
    refine .inr ⟨?_, ?_⟩
    · rcases text_of_leans hp hloose hl with htext | htext | htext | htext
      · exact absurd (by rw [htext]; decide) hnumber.2
      · exact absurd (by rw [htext]; decide) hnumber.2
      · exact absurd (by rw [htext]; decide) hnumber.2
      · exact htext
    · rintro rfl
      obtain ⟨_, c, t, _, ht, hr⟩ := hw'
      obtain rfl : c = .char '=' := by simpa [ht] using hhead
      rw [hnumber.1] at hr
      rcases hr.punct_of_plain (by decide) (by decide) with ⟨-, ho⟩ | hk
      · exact absurd ho (by simp [opensNumber]; decide)
      · cases hk
  · refine .inl ⟨?_, ?_⟩
    · by_contra hd
      exact hgathered (Word.isGathered_of_head hw' hhead (by simpa using hd))
    · by_contra hd
      exact hgathered
        (Word.isGathered_iff.2 (.inr (Word.number_of_head hw' hhead (by simpa using hd))))

/-- behind a loose punctuator that the next word is not gathered with, nothing goes on with it -/
theorem head_of_not_runs (hp : p.Prints w) (hloose : w.isLoose = true) (hq : q.Prints w')
    (hw' : Token.Readable w'.kind w'.text) (hruns : ¬ RunsInto p q w w') (rest : Text)
    {d : CodePoint} (hd : (p.separator q ++ (q.text ++ rest)).head? = some d) :
    Lexical.isLoose d = false ∧ d.isDigitValued = false ∨ w.text = Text.ofString "!" ∧
    d ≠ .char '=' := by
  cases hl : p.leans with
  | false => exact .inl (head_of_not_leans hp hloose hq hw'.shaped hruns hl rest hd)
  | true => exact head_of_leans hp hloose hq hw' hruns hl rest hd

theorem borders_of_loose (hp : p.Prints w) (hw : Token.Readable w.kind w.text)
    (hloose : w.isLoose = true) (hq : q.Prints w') (hw' : Token.Readable w'.kind w'.text)
    (hruns : ¬ RunsInto p q w w') (ha : ∀ c ∈ a, Lexical.isLoose c = true) (rest : Text) :
    Borders (a ++ w.text) (p.separator q ++ (q.text ++ rest)) := by
  have hchars := (Word.isLoose_iff.1 hloose).2
  have hall : ∀ c ∈ a ++ w.text, Lexical.isLoose c = true :=
    fun c hc => (List.mem_append.1 hc).elim (ha c) (hchars c)
  have hlast := List.getLast?_append_of_ne_nil a (Word.text_ne_nil hw)
  refine ⟨fun c hc => .inl (hall c hc), fun c hc d hd t ht hwithin => ?_,
    fun hc d hd => ?_, .inl hall⟩
  · rcases head_of_not_runs hp hloose hq hw' hruns rest hd with ⟨hnot, -⟩ | ⟨htext, hne⟩
    · rw [isLoose_of_within (hall c (List.mem_of_getLast? hc)) ht hwithin] at hnot
      cases hnot
    · have hequals : ∀ t ∈ punctuators, ∀ d ∈ t, [.char '!', d] <:+: t → d = .char '=' := by
        decide +kernel
      rw [hlast, htext] at hc
      obtain rfl : CodePoint.char '!' = c := Option.some.inj hc
      exact hne (hequals t ht d (hwithin.subset (by simp)) hwithin)
  · rcases head_of_not_runs hp hloose hq hw' hruns rest hd with ⟨-, hdigit⟩ | ⟨htext, -⟩
    · exact hdigit
    · rw [hlast, htext] at hc
      exact absurd hc (by decide)

theorem borders_of_number (hp : p.Prints w) (hw : Token.Readable w.kind w.text)
    (hk : w.kind = .number) (hq : q.Prints w') (hs : Token.Shaped w'.kind w'.text)
    (ha : ∀ c ∈ a, Lexical.isLoose c = true) (rest : Text) :
    Borders (a ++ w.text) (p.separator q ++ (q.text ++ rest)) := by
  have hkind : p.kind = .number := by rw [hp.kind_eq (by simp [hk]), hk]; rfl
  have hlast := List.getLast?_append_of_ne_nil a (Word.text_ne_nil hw)
  have hlength : numberLength w.text = w.text.length := numberLength_of_readable (hk ▸ hw)
  obtain ⟨d, hmem, hhead, -⟩ := head_behind hq hs (p := p) (by simp [leans, hkind]) rest
  have hmem : d ∈ .char ' ' :: .char '\n' :: closers := by
    simpa [attachable, hkind, endsOperand, isName] using hmem
  have hclosers : ∀ d ∈ .char ' ' :: .char '\n' :: closers, d.isDigitValued = false ∧
      isNamePart d = false ∧ ∀ t ∈ punctuators, ¬ [.char '.', d] <:+: t := by decide +kernel
  have hsigns : ∀ t ∈ punctuators, ∀ c ∈ t, isHexPart c = false ∧ c ≠ .char 'n' := by decide
  refine ⟨fun c hc => ?_, fun c hc d' hd t ht hwithin => ?_, fun _ d' hd => ?_,
    .inr ⟨bounded_behind hp hk hq hs, fun d' hd => ?_⟩⟩
  · exact (List.mem_append.1 hc).elim (fun hc => .inl (ha c hc)) fun hc =>
      .inr (isNumeric_of_number hlength c hc)
  · obtain rfl := Option.some.inj (hhead.symm.trans hd)
    rw [hlast] at hc
    obtain ⟨hhex, hn⟩ := hsigns t ht c (hwithin.subset (by simp))
    rcases getLast?_of_number hlength c hc with hc | rfl | rfl
    · rw [hhex] at hc
      cases hc
    · exact (hclosers d hmem).2.2 t ht hwithin
    · exact hn rfl
  · obtain rfl := Option.some.inj (hhead.symm.trans hd)
    exact (hclosers d hmem).1
  · obtain rfl := Option.some.inj (hhead.symm.trans hd)
    exact (hclosers d hmem).2.1

/-- at the end of a text -/
theorem borders_nil {u : Text} (h : ∀ c ∈ u, Lexical.isLoose c = true ∨ isNumeric c = true) :
    Borders u [] :=
  ⟨h, fun _ _ _ hd => (by cases hd), fun _ _ hd => (by cases hd),
    .inr ⟨fun _ hd => (by cases hd), stops_nil⟩⟩

end Piece

/-! ## gathering -/

variable {a rest : Text} {tr tr' : Trail} {w w' : Word} {ws : List Word} {ctx ctx' : Token.Context}
  {ls : List Lexeme}

/-- the text that is gathered before a word that stands behind `tr` -/
structure Gathers (a : Text) (tr : Trail) (w : Word) : Prop where
  loose : ∀ c ∈ a, Lexical.isLoose c = true
  points : w.isGathered = true → w.newline = false → tr.points = endPoints a
  beside : a ≠ [] → w.newline = false ∧ w.isGathered = true
  number : a ≠ [] → w.kind = .number → a.getLast? = some (.char '.')

/-- the points behind a loose punctuator are those that the text ends with -/
theorem Gathers.points_behind (h : Gathers a tr w) (hw : Token.Readable w.kind w.text)
    (hloose : w.isLoose = true) : (tr.behind w).points = endPoints (a ++ w.text) := by
  have hbefore : (if w.newline then 0 else tr.points) = endPoints a := by
    cases hn : w.newline with
    | false => exact h.points (Word.isGathered_iff.2 (.inl hloose)) hn
    | true =>
      have ha : a = [] := by
        by_contra ha
        rw [(h.beside ha).1] at hn
        cases hn
      rw [ha]
      rfl
  have hkind : ¬ (w.kind ≠ .punct) := not_not_intro (Word.isLoose_iff.1 hloose).1
  rw [Trail.behind]
  simp only [hbefore, if_neg hkind]
  split
  · rw [‹w.text = Text.ofString "."›, endPoints_append_point]
  split
  · rw [‹w.text = Text.ofString "..."›, endPoints_append_points]
  split
  · have htext : a ++ w.text = (a ++ Text.ofString "?") ++ Text.ofString "." := by
      rw [‹w.text = Text.ofString "?."›]
      simp [Text.ofString]
    have hquestion : endPoints (a ++ Text.ofString "?") = 0 :=
      endPoints_eq_zero.2 (by rw [List.getLast?_append_of_ne_nil _ (by decide)]; decide)
    rw [htext, endPoints_append_point, hquestion]
  · have hends : ∀ q ∈ punctuators, q.getLast? = some (.char '.') →
        q = Text.ofString "." ∨ q = Text.ofString "..." ∨ q = Text.ofString "?." := by decide
    rw [eq_comm, endPoints_eq_zero, List.getLast?_append_of_ne_nil _ (Word.text_ne_nil hw)]
    intro hlast
    rcases hends _ (Word.mem_punctuators_of_isLoose hw hloose) hlast with htext | htext | htext
    · exact absurd htext ‹_›
    · exact absurd htext ‹_›
    · exact absurd htext ‹_›

theorem points_behind_of_not_loose (hloose : w.isLoose = false) (tr : Trail) :
    (tr.behind w).points = 0 := by
  by_cases hk : w.kind = .punct
  · have hstrict : ∀ t ∈ [Text.ofString ".", Text.ofString "...", Text.ofString "?."],
        w.text ≠ t := by
      have hall : ∀ t ∈ [Text.ofString ".", Text.ofString "...", Text.ofString "?."],
          t.all Lexical.isLoose = true := by
        decide
      rintro t ht rfl
      simp [Word.isLoose, hk, hall _ ht] at hloose
    simp only [List.mem_cons, List.not_mem_nil, or_false, forall_eq_or_imp, forall_eq] at hstrict
    simp [Trail.behind, hk, hstrict]
  · rw [Trail.behind_of_not_punct hk]

/-- What is read behind the words tells of what comes next what the words do, where nothing is
gathered; `ctx'` stands before the text that is gathered. -/
structure Echoes (ctx ctx' : Token.Context) (tr tr' : Trail) (a : Text)
    (next : Option Word) : Prop where
  braces : ctx.braces = ctx'.braces
  parens : ctx.parens = ctx'.parens
  dot : tr'.dot = ctx'.namesMember
  head : a = [] → ctx.namesHead = ctx'.namesHead
  slash :
    a = [] → ctx.slashOpensRegex = ctx'.slashOpensRegex ∨
    ∀ w ∈ next, ¬ Token.IsSlash (w.kind, w.text)
  member : a = [] → tr.member = true → ctx'.namesMember = true

/-- behind a word that is read as it is -/
theorem Echoes.after (h : Echoes ctx ctx' tr tr' [] (some w)) (next : Option Word) :
    Echoes (ctx.after w.kind w.text) (ctx'.after w.kind w.text) (tr.behind w) (tr'.behind w)
      [] next := by
  have hlike : Like (ctx.after w.kind w.text) (ctx'.after w.kind w.text) :=
    like_after h.braces h.parens fun _ => h.head rfl
  refine ⟨hlike.braces, hlike.parens, (Word.namesMember_after ctx' w).symm, fun _ =>
    congrArg Token.Left.head hlike.left, fun _ => .inl (congrArg Token.Left.regex hlike.left),
    fun _ hmember => ?_⟩
  rw [Trail.member, Bool.and_eq_true] at hmember
  rw [Word.namesMember_after]
  exact hmember.1

/-- a word that is gathered leaves braces and parentheses alone -/
theorem Echoes.gather (h : Echoes ctx ctx' tr tr' a (some w)) (hw : w.isGathered = true) {b : Text}
    (hb : b ≠ []) (next : Option Word) :
    Echoes (ctx.after w.kind w.text) ctx' (tr.behind w) tr' b next := by
  have hafter :
      (ctx.after w.kind w.text).braces = ctx.braces ∧
      (ctx.after w.kind w.text).parens = ctx.parens := by
    rcases Word.isGathered_iff.1 hw with hw | hw
    · rw [(Word.isLoose_iff.1 hw).1]
      exact ⟨rfl, rfl⟩
    · rw [hw]
      exact ⟨rfl, rfl⟩
  exact ⟨hafter.1.trans h.braces, hafter.2.trans h.parens, h.dot, fun h => absurd h hb, fun h =>
    absurd h hb, fun h => absurd h hb⟩

/-- behind scraps a slash means what it means behind the words that were gathered -/
theorem slash_of_cut (hgathers : Gathers a tr w) (hw : w.isGathered = true)
    (hnumber : w.kind = .number → a ≠ []) (hlegal : ctx.Legal (w :: ws))
    (hlegible : Word.Legible tr (w :: ws)) (hscraps : Lexeme.Scraps (a ++ w.text) rest ls)
    (ctx' : Token.Context) :
    (ctx.after w.kind w.text).slashOpensRegex = (Lexeme.contextAfter ctx' ls).slashOpensRegex ∨
      ∀ w' ∈ ws.head?, ¬ Token.IsSlash (w'.kind, w'.text) := by
  have hne := Word.text_ne_nil hlegal.1
  rcases Word.isGathered_iff.1 hw with hloose | hk
  · obtain ⟨hk, hchars⟩ := Word.isLoose_iff.1 hloose
    have hall : ∀ c ∈ a ++ w.text, Lexical.isLoose c = true := fun c hc =>
      (List.mem_append.1 hc).elim (hgathers.loose c) (hchars c)
    have hplus : w.text ≠ Text.ofString "++" ∧ w.text ≠ Text.ofString "--" := by
      constructor <;> · intro htext; rw [htext] at hchars; exact absurd hchars (by decide)
    refine .inl ?_
    rw [hscraps.regex_of_loose (by simp [hne]) hall, hk]
    simp [Token.Context.after, slashOpensRegex, hplus]
  · have hpoint := hgathers.number (hnumber hk) hk
    have hlength : numberLength w.text = w.text.length := numberLength_of_readable (hk ▸ hlegal.1)
    have hafter : (ctx.after w.kind w.text).slashOpensRegex = false := by rw [hk]; rfl
    by_cases hlast : w.text.getLast? = some (.char '.')
    · -- the number has lost its last point
      refine .inr fun w' hw' hslash => hlegible.2.1 w' hw' (.inr ?_)
      obtain ⟨ws, rfl⟩ := List.head?_eq_some_iff.1 hw'
      obtain ⟨-, -, hw', hadmits, -⟩ := hlegal
      have hpoints : tr.points ≠ 0 := by
        rw [hgathers.points hw (hgathers.beside (hnumber hk)).1]
        exact fun hzero => endPoints_eq_zero.1 hzero hpoint
      refine ⟨hk, hlast, (hgathers.beside (hnumber hk)).1, hpoints, ?_, hslash⟩
      rcases kind_of_isSlash hw' hslash with hregex | hpunct
      · rw [hregex] at hadmits
        exact absurd (hafter.symm.trans hadmits) (by decide)
      · exact hpunct
    · exact .inl (hafter.trans (hscraps.regex_of_number hpoint hne hlength hlast ctx').symm)

/-- behind words that are cut anew -/
theorem Echoes.cut (h : Echoes ctx ctx' tr tr' a (some w)) (hgathers : Gathers a tr w)
    (hw : w.isGathered = true) (hnumber : w.kind = .number → a ≠ []) (hlegal : ctx.Legal (w :: ws))
    (hlegible : Word.Legible tr (w :: ws)) (hscraps : Lexeme.Scraps (a ++ w.text) rest ls)
    (broken : Option Bool) :
    Echoes (ctx.after w.kind w.text) (Lexeme.contextAfter ctx' ls) (tr.behind w)
      (tr'.behindAll (Lexeme.words broken ls)) [] ws.head? := by
  have hne : a ++ w.text ≠ [] := by simp [Word.text_ne_nil hlegal.1]
  have hafter := h.gather hw hne none
  obtain ⟨hbraces, hparens⟩ := hscraps.braces ctx'
  refine ⟨hafter.braces.trans hbraces.symm, hafter.parens.trans hparens.symm, ?_, fun _ => ?_,
    fun _ => slash_of_cut hgathers hw hnumber hlegal hlegible hscraps ctx', fun _ hmember => ?_⟩
  · rw [Lexeme.contextAfter_eq_afterAll broken]
    exact Trail.dot_behindAll h.dot
  · rw [hscraps.namesHead hne]
    rcases Word.isGathered_iff.1 hw with hw | hw
    · rw [(Word.isLoose_iff.1 hw).1]
      rfl
    · rw [hw]
      rfl
  · rw [Trail.member, Bool.and_eq_true, decide_eq_true_eq] at hmember
    rcases Word.isGathered_iff.1 hw with hloose | hk
    · have hchars := (Word.isLoose_iff.1 hloose).2
      have hpoints := hgathers.points_behind hlegal.1 hloose
      rw [hpoints] at hmember
      refine hscraps.namesMember_of_points (fun c hc =>
        (List.mem_append.1 hc).elim (hgathers.loose c) (hchars c))
          (fun hzero => ?_) hmember.2 ctx'
      have hdot : w.isMemberDot = true := hmember.1
      rw [endPoints_eq_zero, List.getLast?_append_of_ne_nil _ (Word.text_ne_nil hlegal.1)] at hzero
      simp only [Word.isMemberDot, Bool.and_eq_true, Bool.or_eq_true, decide_eq_true_eq] at hdot
      rcases hdot.2 with htext | htext <;> · rw [htext] at hzero; exact hzero (by decide)
    · rw [Trail.behind_of_not_punct (by simp [hk])] at hmember
      cases hmember.1

/-- a word that nothing is gathered before, and that is not cut anew -/
theorem Gathers.alone (h : Gathers a tr w)
    (hcut : ¬ (w.isGathered = true ∧ (w.kind = .number → a ≠ []))) :
    a = [] ∧ w.isLoose = false := by
  constructor
  · by_contra ha
    exact hcut ⟨(h.beside ha).2, fun _ => ha⟩
  · by_contra hloose
    rw [Bool.not_eq_false] at hloose
    exact hcut ⟨Word.isGathered_iff.2 (.inl hloose), fun hk => by simp [Word.isLoose, hk] at hloose⟩

/-- the word may stand where it is read -/
theorem Echoes.admits (h : Echoes ctx ctx' tr tr' [] (some w)) (hlegal : ctx.Legal (w :: ws))
    (hlegible : Word.Legible tr (w :: ws)) : ctx'.Admits w.kind w.text :=
  (admits_iff hlegal.1 h.braces (fun hk => absurd hk hlegible.1) hlegal.2.1).2
    ((h.slash rfl).imp_right fun h => h w rfl)

theorem Echoes.keep {out : List Word} (h : Echoes ctx ctx' tr tr' [] (some w))
    (hregroups : Regroups false (tr.behind w) (tr'.behind w) ws out) :
    Regroups false tr tr' (w :: ws) (w :: out) :=
  .keep (fun hmember => h.dot.trans (h.member rfl hmember)) hregroups

namespace Gathers

variable {p q : Piece}

/-- the word is gathered, and the next one runs into it -/
theorem runs (h : Gathers a tr w) (hw : Token.Readable w.kind w.text)
    (hruns : Piece.RunsInto p q w w') (hq : q.Prints w') :
    Gathers (a ++ w.text) (tr.behind w) w' where
  loose c hc := (List.mem_append.1 hc).elim (h.loose c) ((Word.isLoose_iff.1 hruns.loose).2 c)
  points _ _ := h.points_behind hw hruns.loose
  beside _ := ⟨hq.newline ▸ Piece.newline_of_separator hruns.beside, hruns.next⟩
  number _ hk := (List.getLast?_append_of_ne_nil _ (Word.text_ne_nil hw)).trans (hruns.point hk)

/-- nothing is gathered before the next word -/
theorem begins (h : Gathers a tr w) (hp : p.Prints w) (hw : Token.Readable w.kind w.text)
    (hq : q.Prints w') (hruns : ¬ Piece.RunsInto p q w w') : Gathers [] (tr.behind w) w' where
  loose := by simp
  points hgathered hnewline := by
    cases hloose : w.isLoose with
    | false => exact points_behind_of_not_loose hloose tr
    | true =>
      -- behind points the next word is gathered
      show _ = 0
      rw [h.points_behind hw hloose, endPoints_eq_zero,
        List.getLast?_append_of_ne_nil _ (Word.text_ne_nil hw)]
      intro hpoint
      refine hruns ⟨hloose, Piece.separator_eq_nil ?_ (hq.newline.trans hnewline), hgathered,
        fun _ => hpoint⟩
      have hends : ∀ q ∈ punctuators, q.getLast? = some (.char '.') →
          q ∈ Piece.attachesForward := by decide
      exact (Piece.leans_iff hp (Word.isLoose_iff.1 hloose).1).2
        (hends _ (Word.mem_punctuators_of_isLoose hw hloose) hpoint)
  beside := fun h => absurd rfl h
  number := fun h => absurd rfl h

end Gathers

/-! ## words that are read as they are -/

namespace Piece

open Lexeme (textOf Cuts words)

variable {p q : Piece} {l : Lexeme}

/-- a word that is not loose stays apart from whatever comes behind it in the layout -/
theorem apart_of_not_loose (hp : p.Prints w) (hw : Token.Readable w.kind w.text)
    (hloose : w.isLoose = false) (hq : q.Prints w') (hw' : Token.Readable w'.kind w'.text)
    (rest : Text) : Apart w.kind w.text (p.separator q ++ (q.text ++ rest)) := by
  refine apart_of_readable hp hw hq hw'.shaped fun hk => ?_
  rw [hk] at hw
  cases hl : p.leans with
  | false =>
    have hall :
        ∀ t ∈ [Text.ofString ".", Text.ofString "?.", Text.ofString "!", Text.ofString "?"],
        t.all Lexical.isLoose = true := by decide
    have hstrict :
        ∀ t ∈ [Text.ofString ".", Text.ofString "?.", Text.ofString "!", Text.ofString "?"],
        w.text ≠ t := by
      rintro t ht rfl
      rw [Word.isLoose, hk, hall _ ht] at hloose
      cases hloose
    have hclashes : w.clashes false w' = false := by
      unfold Word.clashes
      rw [hk]
      split <;> simp_all
    exact apart_of_not_leans hp hk hw hq hw'.shaped hl fun _ => hclashes
  | true =>
    -- only a tilde leans to what follows and is not loose
    have htilde : w.text = Text.ofString "~" := by
      have hall : ∀ t ∈ attachesForward, t ∈ punctuators → t.all Lexical.isLoose = false →
          t = Text.ofString "~" := by
        decide
      have hforward := (leans_iff hp hk).1 hl
      have hslash : ∀ t ∈ attachesForward, t.head? ≠ some (.char '/') := by decide
      refine hall _ hforward (mem_punctuators hw (hslash _ hforward)) ?_
      simpa [Word.isLoose, hk] using hloose
    rw [htilde, Apart, if_neg (by decide)]
    exact ⟨punctuatorLength?_append (by decide) (fun d _ =>
      opensPunctuator_of_longest (by decide) d) fun h => absurd h (by decide), fun h =>
      absurd h (by decide)⟩

/-- a brace is found behind a word only if one is read there -/
theorem openBrace_of_leads (hw' : Token.Readable w'.kind w'.text)
    (hl : w'.isGathered = true ∨ l = ⟨.token w'.kind, w'.text⟩)
    (hcuts : Cuts ctx (l :: ls) []) (htext : textOf (l :: ls) = w'.text ++ rest)
    (hleads : leadsToBrace false (w'.text ++ rest) = true) : w'.kind = .openBrace := by
  rcases hl with hgathered | rfl
  · obtain ⟨_, c, t, _, ht, -⟩ := id hw'
    have hforeign : ∀ c ∈ [CodePoint.char ' ', .char '\t', .char '\x7b', .char '/'],
        ¬ (Lexical.isLoose c = true ∨ isNumeric c = true) := by decide
    have hc := Word.chars_of_isGathered hw' hgathered c (by simp [ht])
    rw [ht, List.cons_append, leadsToBrace_stops fun hmem => hforeign c hmem hc] at hleads
    cases hleads
  · obtain ⟨⟨c, t, ht, hr⟩, -⟩ := hcuts
    rw [← htext, Lexeme.textOf_cons, ht, List.cons_append] at hleads
    rw [List.append_nil] at hr
    exact hr.openBrace_of_leadsToBrace hleads

theorem foresees_of_legible (hkind : w.kind ≠ .module) (hmisread : ¬ Word.Misread tr w w')
    (hmember : tr.member = true → ctx'.namesMember = true) (hq : q.Prints w')
    (hw' : Token.Readable w'.kind w'.text)
    (hl : w'.isGathered = true ∨ l = ⟨.token w'.kind, w'.text⟩) (hcuts : Cuts ctx (l :: ls) [])
    (htext : textOf (l :: ls) = w'.text ++ rest) (p : Piece) :
    Foresees ctx' w.kind w.text (p.separator q ++ (w'.text ++ rest)) := by
  refine ⟨fun hk => absurd hk hkind, fun hk hmodule hleads => ?_⟩
  have hbeside : q.newline = false ∧ leadsToBrace false (w'.text ++ rest) = true := by
    unfold separator at hleads
    split at hleads
    · cases hleads
    · refine ⟨by simpa using ‹¬q.newline = true›, ?_⟩
      split at hleads
      · simpa [leadsToBrace] using hleads
      · exact hleads
  have hbrace := openBrace_of_leads hw' hl hcuts htext hbeside.2
  refine hmember ?_
  by_contra hnot
  exact hmisread (.inl ⟨hk, hmodule, by simpa using hnot, hbrace, hq.newline ▸ hbeside.1⟩)

/-! ## all words -/

theorem words_append_tokens {lead more : List Lexeme}
    (h : ∀ l ∈ lead, ∃ kind, l.front = .token kind) (hne : lead ≠ [])
    (broken : Option Bool) :
    words broken (lead ++ more) = words broken lead ++ words (some false) more := by
  induction lead generalizing broken with
  | nil => exact absurd rfl hne
  | cons l lead ih =>
    obtain ⟨⟨kind, hl⟩, hlead⟩ := List.forall_mem_cons.1 h
    rw [List.cons_append, words, words, hl]
    by_cases hempty : lead = []
    · subst hempty
      rfl
    · show _ :: words _ (lead ++ more) = _
      rw [ih hlead hempty, List.cons_append]

/-- what is cut from one piece on stands behind what has been cut before it -/
theorem cuts_behind {lead ls : List Lexeme} (hlead : ∀ l ∈ lead, ∃ kind, l.front = .token kind)
    (hne : lead ≠ []) (hcuts : Cuts ctx lead (p.separator q ++ textOf (l :: ls)))
    (hl : ∃ kind, l.front = .token kind)
    (hbehind : Cuts (Lexeme.contextAfter ctx lead) (l :: ls) []) :
    ∃ more, textOf more = p.separator q ++ textOf (l :: ls) ∧
      Cuts ctx (lead ++ more) [] ∧
      ∀ broken, words broken (lead ++ more) = words broken lead ++ words (some q.newline)
        (l :: ls) := by
  have hblank : Stops isWhitespace (textOf (l :: ls) ++ []) := by
    obtain ⟨kind, hl⟩ := hl
    obtain ⟨⟨c, t, ht, hr⟩, -⟩ := hbehind
    rw [hl] at hr
    rw [Lexeme.textOf_cons, ht, List.cons_append, List.cons_append, stops_cons]
    by_contra hc
    cases hr.front_unique (.blanks (by simpa using hc))
  obtain ⟨gs, hgtext, hgap, hgcuts⟩ :=
    Lexeme.cuts_separator (Lexeme.contextAfter ctx lead) p q hblank
  refine ⟨gs ++ l :: ls, by rw [Lexeme.textOf_append, hgtext],
    Lexeme.cuts_append.2 ⟨?_, Lexeme.cuts_append.2 ⟨hgcuts, ?_⟩⟩, fun broken => ?_⟩
  · rwa [Lexeme.textOf_append, hgtext, List.append_nil]
  · rwa [Lexeme.contextAfter_gaps hgap]
  · rw [words_append_tokens hlead hne, Lexeme.words_append_gaps hgap, hgtext, endsLine_separator]
    rfl

/-- what is gathered is cut into scraps -/
theorem exists_cut (hne : a ≠ []) (h : Borders a rest) : ∃ l ls, Lexeme.Scraps a rest (l :: ls) ∧
    (∀ l' ∈ l :: ls, ∃ kind, l'.front = .token kind) ∧
    ∀ broken, words broken (l :: ls) ≠ [] ∧ ∀ s ∈ words broken (l :: ls), s.IsScrap := by
  obtain ⟨ls, hscraps⟩ := Lexeme.exists_scraps h
  cases ls with
  | nil => exact absurd hscraps.text.symm hne
  | cons l ls =>
    have hkinds : ∀ l' ∈ l :: ls, l'.front = .token .punct ∨ l'.front = .token .number ∨
        l'.front = .token .name :=
      fun l' hl' => (hscraps.kinds l' hl').imp_right And.left
    have htokens : ∀ l' ∈ l :: ls, ∃ kind, l'.front = .token kind := fun l' hl' => by
      rcases hkinds l' hl' with h | h | h <;> exact ⟨_, h⟩
    refine ⟨l, ls, hscraps, htokens, fun broken => ⟨?_, fun s hs => ?_⟩⟩
    · obtain ⟨kind, hl⟩ := htokens l List.mem_cons_self
      rw [words, hl]
      exact List.cons_ne_nil _ _
    · obtain ⟨l', hl', hfront, htext⟩ := Lexeme.exists_of_mem_words hs
      refine ⟨?_, fun c hc => hscraps.chars c ?_⟩
      · have hkind := hkinds l' hl'
        rw [hfront] at hkind
        simpa using hkind
      · rw [← hscraps.text, textOf, List.mem_flatMap]
        exact ⟨l', hl', htext ▸ hc⟩

theorem exists_render (p : Piece) (ps : List Piece) :
    ∃ rest, render (p :: ps) = p.text ++ rest := by
  cases ps with
  | nil => exact ⟨[], (List.append_nil _).symm⟩
  | cons q ps => exact ⟨_, render_cons_cons p q ps⟩

/-- what the words from one on are read as where the text `a` is gathered before them -/
structure Recut (ctx : Token.Context) (tr tr' : Trail) (broken : Option Bool) (a t : Text)
    (w : Word) (ws : List Word) (l : Lexeme) (ls : List Lexeme) : Prop where
  text : textOf (l :: ls) = a ++ t
  cuts : Cuts ctx (l :: ls) []
  token : ∃ kind, l.front = .token kind
  first : a = [] → w.isGathered = true ∨ l = ⟨.token w.kind, w.text⟩
  regroups : Regroups (!a.isEmpty) tr tr' (w :: ws) (words broken (l :: ls))

variable {ps : List Piece} {out : List Word} {broken : Option Bool} {l l' : Lexeme}
  {ls' : List Lexeme}

/-- a word that runs into the next one is gathered, too -/
theorem Recut.gather (h : Recut ctx' (tr.behind w) tr' broken (a ++ w.text) (render (q :: ps)) w' ws
      l ls) (hp : p.Prints w) (hw : Token.Readable w.kind w.text) (hruns : RunsInto p q w w') :
    Recut ctx' tr tr' broken a (render (p :: q :: ps)) w (w' :: ws) l ls := by
  have hgathered := Word.isGathered_iff.2 (.inl hruns.loose)
  have hne : a ++ w.text ≠ [] := by simp [Word.text_ne_nil hw]
  refine ⟨?_, h.cuts, h.token, fun _ => .inl hgathered, .gather hgathered ?_⟩
  · rw [h.text, render_cons_cons, hruns.beside, hp.text, List.nil_append, List.append_assoc]
  · have hregroups := h.regroups
    rwa [List.isEmpty_eq_false_iff.2 hne] at hregroups

/-- the last word that is gathered is cut together with those before it -/
theorem Recut.cut
    (h : Recut (Lexeme.contextAfter ctx' (l :: ls)) (tr.behind w)
      (tr'.behindAll (words broken (l :: ls))) (some q.newline) [] (render (q :: ps)) w' ws l' ls')
    (hp : p.Prints w) (hgathered : w.isGathered = true)
    (hscraps : Lexeme.Scraps (a ++ w.text) (p.separator q ++ render (q :: ps)) (l :: ls))
    (htokens : ∀ l' ∈ l :: ls, ∃ kind, l'.front = .token kind)
    (hwords : words broken (l :: ls) ≠ [] ∧ ∀ s ∈ words broken (l :: ls), s.IsScrap) :
    ∃ more, Recut ctx' tr tr' broken a (render (p :: q :: ps)) w (w' :: ws) l (ls ++ more) := by
  have htext : textOf (l' :: ls') = render (q :: ps) := h.text
  obtain ⟨more, hmore, hall, hwords'⟩ := cuts_behind htokens (List.cons_ne_nil l ls)
    (htext ▸ hscraps.cuts ctx') h.token h.cuts
  refine ⟨more, ?_, hall, htokens l List.mem_cons_self, fun _ => .inl hgathered, ?_⟩
  · rw [← List.cons_append, Lexeme.textOf_append, hscraps.text, hmore, htext,
      render_cons_cons, hp.text, List.append_assoc]
  · rw [← List.cons_append, hwords']
    exact .cut hgathered hwords.1 hwords.2 h.regroups

/-- a word that is not gathered is read as it is -/
theorem Recut.keep
    (h : Recut (ctx'.after w.kind w.text) (tr.behind w) (tr'.behind w) (some q.newline) []
      (render (q :: ps)) w' ws l' ls')
    (hp : p.Prints w) (hq : q.Prints w') (hlegal : ctx.Legal (w :: w' :: ws))
    (hlegible : Word.Legible tr (w :: w' :: ws)) (hechoes : Echoes ctx ctx' tr tr' [] (some w))
    (hloose : w.isLoose = false) (hbroken : broken.getD false = w.newline) :
    ∃ more, Recut ctx' tr tr' broken [] (render (p :: q :: ps)) w (w' :: ws)
      ⟨.token w.kind, w.text⟩ more := by
  obtain ⟨hw, -, hw', -⟩ := id hlegal
  obtain ⟨rest, hrest⟩ := exists_render q ps
  have htext : textOf (l' :: ls') = q.text ++ rest := h.text.trans hrest
  have hstands :
      Lexeme.Stands ⟨.token w.kind, w.text⟩ ctx' (p.separator q ++ textOf (l' :: ls')) := by
    rw [htext]
    refine Lexeme.stands_of_readable hw (hechoes.admits hlegal hlegible)
      (apart_of_not_loose hp hw hloose hq hw' rest) ?_
    rw [hq.text] at htext ⊢
    exact foresees_of_legible hlegible.1 (hlegible.2.1 w' rfl) (hechoes.member rfl) hq hw'
      (h.first rfl) h.cuts htext p
  have hlead : Cuts ctx' [⟨.token w.kind, w.text⟩] (p.separator q ++ textOf (l' :: ls')) :=
    ⟨hstands, trivial⟩
  obtain ⟨more, hmore, hall, hwords⟩ := cuts_behind (by simp) (by simp) hlead h.token h.cuts
  refine ⟨more, ?_, hall, ⟨_, rfl⟩, fun _ => .inr rfl, ?_⟩
  · rw [Lexeme.textOf_cons, hmore, htext, render_cons_cons, hp.text, hrest]
    rfl
  · rw [show words broken (⟨.token w.kind, w.text⟩ :: more) = _ from hwords broken, words, hbroken]
    exact hechoes.keep h.regroups

/-- the last word is cut together with those that are gathered before it -/
theorem exists_recut_last (hp : p.Prints w) (hw : Token.Readable w.kind w.text)
    (hgathers : Gathers a tr w) (hgathered : w.isGathered = true) (ctx' : Token.Context)
    (tr' : Trail) (broken : Option Bool) :
    ∃ l ls, Recut ctx' tr tr' broken a (render [p]) w [] l ls := by
  have hchars : ∀ c ∈ a ++ w.text, Lexical.isLoose c = true ∨ isNumeric c = true := fun c hc =>
    (List.mem_append.1 hc).elim (fun hc => .inl (hgathers.loose c hc))
      (Word.chars_of_isGathered hw hgathered c)
  obtain ⟨l, ls, hscraps, htokens, hwords⟩ :=
    exists_cut (by simp [Word.text_ne_nil hw]) (borders_nil hchars)
  have hregroups : Regroups (!a.isEmpty) tr tr' [w] (words broken (l :: ls) ++ []) :=
    .cut hgathered (hwords broken).1 (hwords broken).2 .nil
  rw [List.append_nil] at hregroups
  exact ⟨l, ls, hscraps.text.trans (by rw [render, hp.text]), hscraps.cuts ctx',
    htokens l List.mem_cons_self, fun _ => .inl hgathered, hregroups⟩

/-- Pieces that print words are cut into the words again, but for words that are gathered.  The
induction takes words into the text `a` as long as they run into each other, and cuts it where they
do not. -/
theorem cuts_legible_cons {ws : List Word} (h : List.Forall₂ Prints ps ws) :
    ∀ (broken : Option Bool) {p : Piece} {w : Word} {a : Text} {ctx ctx' : Token.Context}
    {tr tr' : Trail}, p.Prints w →
      ctx.Legal (w :: ws) → Word.Legible tr (w :: ws) → Gathers a tr w →
      Echoes ctx ctx' tr tr' a (some w) → (a = [] → broken.getD false = w.newline) →
      ∃ l ls, Recut ctx' tr tr' broken a (render (p :: ps)) w ws l ls := by
  induction h with
  | nil =>
    intro broken p w a ctx ctx' tr tr' hp hlegal hlegible hgathers hechoes hbroken
    by_cases hcut : w.isGathered = true ∧ (w.kind = .number → a ≠ [])
    · exact exists_recut_last hp hlegal.1 hgathers hcut.1 ctx' tr' broken
    · obtain ⟨rfl, -⟩ := hgathers.alone hcut
      have hforesees : Foresees ctx' w.kind w.text [] :=
        ⟨fun hk => absurd hk hlegible.1, fun _ _ hleads => by cases hleads⟩
      refine ⟨⟨.token w.kind, w.text⟩, [], by simp [render, hp.text], ⟨?_, trivial⟩, ⟨_, rfl⟩,
        fun _ => .inr rfl, ?_⟩
      · exact Lexeme.stands_of_readable hlegal.1 (hechoes.admits hlegal hlegible)
          (apart_nil hlegal.1) hforesees
      · rw [words, hbroken rfl]
        exact hechoes.keep .nil
  | @cons q w' ps ws hq _ ih =>
    intro broken p w a ctx ctx' tr tr' hp hlegal hlegible hgathers hechoes hbroken
    have hw := hlegal.1
    have hw' := hlegal.2.2.1
    by_cases hruns : RunsInto p q w w'
    · have hgathered := Word.isGathered_iff.2 (.inl hruns.loose)
      have hne : a ++ w.text ≠ [] := by simp [Word.text_ne_nil hw]
      obtain ⟨l, ls, hrecut⟩ := ih broken hq hlegal.2.2 hlegible.2.2 (hgathers.runs hw hruns hq)
        (hechoes.gather hgathered hne _) fun h => absurd h hne
      exact ⟨l, ls, hrecut.gather hp hw hruns⟩
    have hbegins := hgathers.begins hp hw hq hruns
    by_cases hcut : w.isGathered = true ∧ (w.kind = .number → a ≠ [])
    · obtain ⟨hgathered, hnumber⟩ := hcut
      have hborders : Borders (a ++ w.text) (p.separator q ++ render (q :: ps)) := by
        obtain ⟨rest, hrest⟩ := exists_render q ps
        rw [hrest]
        rcases Word.isGathered_iff.1 hgathered with hloose | hk
        · exact borders_of_loose hp hw hloose hq hw' hruns hgathers.loose rest
        · exact borders_of_number hp hw hk hq hw'.shaped hgathers.loose rest
      obtain ⟨l, ls, hscraps, htokens, hwords⟩ :=
        exists_cut (by simp [Word.text_ne_nil hw]) hborders
      have hcutEchoes := hechoes.cut hgathers hgathered hnumber hlegal hlegible hscraps broken
      obtain ⟨l', ls', hrecut⟩ := ih (some q.newline) hq hlegal.2.2 hlegible.2.2 hbegins hcutEchoes
        fun _ => hq.newline
      obtain ⟨more, hall⟩ := hrecut.cut hp hgathered hscraps htokens (hwords broken)
      exact ⟨l, ls ++ more, hall⟩
    · obtain ⟨rfl, hloose⟩ := hgathers.alone hcut
      obtain ⟨l', ls', hrecut⟩ := ih (some q.newline) hq hlegal.2.2 hlegible.2.2 hbegins
        (hechoes.after _) fun _ => hq.newline
      obtain ⟨more, hall⟩ := hrecut.keep hp hq hlegal hlegible hechoes hloose (hbroken rfl)
      exact ⟨_, more, hall⟩

end Piece

end Relocation
