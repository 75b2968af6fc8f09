import Mathlib.Data.List.Basic
import Relocation.Proofs.Joints
import Relocation.Proofs.Numeral

/-!
# Punctuators that run into each other

Points, question marks, equals signs and the like may be printed side by side and be cut in another
way when they are read, and the digits behind a point with them.  Such a text is cut into
punctuators, numbers and names again (`exists_scraps`).  Of what these scraps leave behind only the
last one counts, and it is part of the text's end: a slash behind loose punctuators begins a regular
expression, and behind a number it does not (`Scraps.regex_of_loose`, `Scraps.regex_of_number`).
-/

namespace Relocation

open Token.Context Lexical

namespace Lexical

/-- the characters of punctuators that may run into what follows -/
def looseSigns : List CodePoint := Text.ofString ".?!=>"

def isLoose (c : CodePoint) : Bool := looseSigns.contains c

/-- a text of loose signs and of characters of numbers ends where `rest` begins -/
structure Borders (u rest : Text) : Prop where
  chars : ∀ c ∈ u, isLoose c = true ∨ isNumeric c = true
  punct : ∀ c ∈ u.getLast?, ∀ d ∈ rest.head?, ∀ q ∈ punctuators, ¬ [c, d] <:+: q
  digit : u.getLast? = some (.char '.') → ∀ d ∈ rest.head?, d.isDigitValued = false
  ends : (∀ c ∈ u, isLoose c = true) ∨ Bounded rest ∧ Stops isNamePart rest

variable {c : CodePoint} {u rest : Text}

theorem Borders.drop (h : Borders u rest) (n : Nat) : Borders (u.drop n) rest := by
  have hlast : ∀ c ∈ (u.drop n).getLast?, c ∈ u.getLast? := by
    intro c hc
    rw [List.getLast?_drop] at hc
    split at hc
    · cases hc
    · exact hc
  exact
    { chars := fun c hc => h.chars c (List.mem_of_mem_drop hc)
      punct := fun c hc => h.punct c (hlast c hc)
      digit := fun hc => h.digit (hlast _ hc)
      ends := h.ends.imp_left fun hloose c hc => hloose c (List.mem_of_mem_drop hc) }

theorem Borders.bounded (h : Borders u rest) (hu : ∃ c ∈ u, isLoose c = false) : Bounded rest ∧
    Stops isNamePart rest := by
  obtain ⟨c, hc, hloose⟩ := hu
  refine h.ends.resolve_left fun hall => ?_
  rw [hall c hc] at hloose
  cases hloose

theorem isLoose_cases (h : isLoose c = true) :
    isPlain c = true ∧ c.isDigitValued = false ∧ isNameStart c = false ∧ [c] ∈ punctuators := by
  have hall : ∀ c ∈ looseSigns, isPlain c = true ∧ c.isDigitValued = false ∧ isNameStart c = false ∧
      [c] ∈ punctuators := by decide
  exact hall c (by simpa [isLoose] using h)

/-- a character of numbers is a digit, or begins a name or a punctuator -/
theorem isNumeric_cases (h : isNumeric c = true) : c.isDecimal = true ∨
    isPlain c = true ∧ c.isDigitValued = false ∧ isNameStart c = true ∨
    isPlain c = true ∧ c.isDigitValued = false ∧ isNameStart c = false ∧ [c] ∈ punctuators := by
  have hletters : ∀ c ∈ numericLetters, isPlain c = true ∧ c.isDigitValued = false ∧
      isNameStart c = true := by decide
  have hsigns : ∀ c ∈ numericSigns, isPlain c = true ∧ c.isDigitValued = false ∧
      isNameStart c = false ∧ [c] ∈ punctuators := by decide
  simp only [isNumeric, Bool.or_eq_true, List.contains_eq_mem, decide_eq_true_eq] at h
  rcases h with (h | h) | h
  · exact .inl h
  · exact .inr (.inl (hletters c h))
  · exact .inr (.inr (hsigns c h))

theorem isDecimal_of_isDigitValued (h : isLoose c = true ∨ isNumeric c = true)
    (hd : c.isDigitValued = true) : c.isDecimal = true := by
  rcases h with h | h
  · rw [(isLoose_cases h).2.1] at hd
    cases hd
  · rcases isNumeric_cases h with h | ⟨-, h, -⟩ | ⟨-, h, -⟩
    · exact h
    · rw [h] at hd
      cases hd
    · rw [h] at hd
      cases hd

/-- where a punctuator may begin, one does, and it ends before the border -/
theorem exists_punctuatorLength (hc : [c] ∈ punctuators)
    (h : ∀ c' ∈ (c :: u).getLast?, ∀ d ∈ rest.head?, ∀ q ∈ punctuators, ¬ [c', d] <:+: q) :
    ∃ n ≤ u.length, punctuatorLength? (c :: (u ++ rest)) = some (n + 1) := by
  have hsome : (punctuatorLength? (c :: (u ++ rest))).isSome = true := by
    rw [punctuatorLength?, Option.isSome_map, List.find?_isSome]
    exact ⟨[c], hc, by simp [List.isPrefixOf]⟩
  obtain ⟨m, hm⟩ := Option.isSome_iff_exists.1 hsome
  obtain ⟨hpos, hle, hmem⟩ := punctuatorLength?_eq_some hm
  obtain ⟨n, rfl⟩ := Nat.exists_eq_succ_of_ne_zero (Nat.pos_iff_ne_zero.1 hpos)
  refine ⟨n, ?_, hm⟩
  by_contra hn
  rw [Nat.not_le] at hn
  cases rest with
  | nil =>
    simp only [List.append_nil, List.length_cons] at hle
    omega
  | cons d rest =>
    -- the punctuator would take the last character before the border and the first behind it
    obtain ⟨init, c', hlast⟩ : ∃ init c', c :: u = init ++ [c'] := by
      obtain ⟨init, c', h⟩ := List.eq_nil_or_concat (c :: u) |>.resolve_left (List.cons_ne_nil c u)
      exact ⟨init, c', by simpa using h⟩
    obtain ⟨k, rfl⟩ := Nat.exists_eq_add_of_lt hn
    have htake :
        (c :: (u ++ d :: rest)).take (u.length + k + 1).succ = init ++ [c', d] ++ rest.take k := by
      rw [← List.cons_append,
        show (u.length + k + 1).succ = (c :: u).length + (k + 1) by rw [List.length_cons]; omega,
        List.take_length_add_append, hlast, List.take_succ_cons]
      simp
    exact h c' (by rw [hlast]; simp) d rfl _ hmem (htake ▸ ⟨init, rest.take k, rfl⟩)

theorem isLoose_of_isDigitValued (h : c.isDigitValued = true) : isLoose c = false := by
  by_contra hloose
  rw [(isLoose_cases (by simpa using hloose)).2.1] at h
  cases h

theorem isLoose_of_isNameStart (h : isNameStart c = true) : isLoose c = false := by
  by_contra hloose
  rw [(isLoose_cases (by simpa using hloose)).2.2.1] at h
  cases h

/-- where a number is announced there is a digit in the text, so that it ends at a boundary -/
theorem exists_digit (h : Borders (c :: u) rest) (ho : opensNumber c (u ++ rest) = true) :
    (∃ d ∈ c :: u, isLoose d = false) ∧ opensStrayDigit c (u ++ rest) = false := by
  simp only [opensNumber, Bool.or_eq_true, Bool.and_eq_true, decide_eq_true_eq] at ho
  by_cases hc : c.isDigitValued = true
  · have hpoint : c ≠ .char '.' := by rintro rfl; exact absurd hc (by decide)
    refine ⟨⟨c, by simp, isLoose_of_isDigitValued hc⟩, ?_⟩
    simp [opensStrayDigit, CodePoint.isStrayDigit,
      isDecimal_of_isDigitValued (h.chars c (by simp)) hc, hpoint]
  · obtain ⟨rfl, hhead⟩ := ho.resolve_left hc
    cases u with
    | nil =>
      obtain ⟨d, hd, hdigit⟩ := Option.any_eq_true _ _ |>.1 hhead
      rw [h.digit rfl d hd] at hdigit
      cases hdigit
    | cons d u =>
      have hd : d.isDigitValued = true := by simpa using hhead
      refine ⟨⟨d, by simp, isLoose_of_isDigitValued hd⟩, ?_⟩
      simp [opensStrayDigit, CodePoint.isStrayDigit,
        isDecimal_of_isDigitValued (h.chars d (by simp)) hd]
      decide

theorem exists_number (h : Borders (c :: u) rest) (ho : opensNumber c (u ++ rest) = true) :
    ∃ n ≤ u.length, ∀ ctx : Token.Context, ctx.Reads c (u ++ rest) (.token .number) n := by
  obtain ⟨hnotloose, hstray⟩ := exists_digit h ho
  have hbounded := (h.bounded hnotloose).1
  have hplain : isPlain c = true := by
    rcases h.chars c (by simp) with hc | hc
    · exact (isLoose_cases hc).1
    · rcases isNumeric_cases hc with hc | hc | hc
      · exact isPlain_of_isDigitValued (by simp [CodePoint.isDigitValued, hc])
      · exact hc.1
      · exact hc.1
  cases hlength : numberLength (c :: (u ++ rest)) with
  | zero =>
    rw [(numberLength_of_opensNumber ho).1 hlength] at hstray
    cases hstray
  | succ n =>
    refine ⟨n, ?_, fun ctx => .number hplain ho hlength⟩
    have hle := numberLength_le (c :: u)
    rw [← numberLength_append_of_bounded hbounded, List.cons_append, hlength, List.length_cons]
      at hle
    omega

theorem exists_word (h : Borders (c :: u) rest) (hplain : isPlain c = true)
    (hdigit : c.isDigitValued = false) (hstart : isNameStart c = true) :
    ∃ n ≤ u.length, ∀ ctx : Token.Context, ctx.Reads c (u ++ rest) (.token .name) n := by
  have hstops := (h.bounded ⟨c, List.mem_cons_self, isLoose_of_isNameStart hstart⟩).2
  have hrun : runLength isNamePart (u ++ rest) = runLength isNamePart u :=
    runLength_append_of_stops hstops
  have hle := runLength_le isNamePart u
  refine ⟨runLength isNamePart u, hle, fun ctx => ?_⟩
  have hname : ctx.nameKind (c :: (u ++ rest).take (runLength isNamePart u))
      ((u ++ rest).drop (runLength isNamePart u)) = .name := by
    refine nameKind_eq_name.2 fun hmodule => ?_
    rw [List.take_append_of_le_length hle] at hmodule
    have hm : CodePoint.char 'm' ∈ c :: u := by
      have : CodePoint.char 'm' ∈ c :: u.take (runLength isNamePart u) := by rw [hmodule]; decide
      exact (List.mem_cons.1 this).elim (fun h => h ▸ List.mem_cons_self) fun h =>
        List.mem_cons_of_mem _ (List.mem_of_mem_take h)
    exact absurd (h.chars _ hm) (by decide)
  have hreads :
      ctx.Reads c (u ++ rest)
        (.token (ctx.nameKind (c :: (u ++ rest).take (runLength isNamePart (u ++ rest)))
      ((u ++ rest).drop (runLength isNamePart (u ++ rest))))) (runLength isNamePart (u ++ rest)) :=
    .word hplain hdigit hstart
  rwa [hrun, hname] at hreads

/-- A text of loose signs and characters of numbers begins with a scrap in every context.  It is a
punctuator, or there is a character in the text that is not loose. -/
theorem exists_scrap (h : Borders (c :: u) rest) : ∃ kind, ∃ n ≤ u.length,
    (∀ ctx : Token.Context, ctx.Reads c (u ++ rest) (.token kind) n) ∧
      (kind = .punct ∨ (kind = .number ∨ kind = .name) ∧ ∃ d ∈ c :: u, isLoose d = false) := by
  by_cases ho : opensNumber c (u ++ rest) = true
  · obtain ⟨n, hn, hreads⟩ := exists_number h ho
    exact ⟨.number, n, hn, hreads, .inr ⟨.inl rfl, (exists_digit h ho).1⟩⟩
  rw [Bool.not_eq_true] at ho
  have hcases : isPlain c = true ∧ c.isDigitValued = false ∧ isNameStart c = true ∨
      [c] ∈ punctuators := by
    rcases h.chars c (by simp) with hc | hc
    · exact .inr (isLoose_cases hc).2.2.2
    rcases isNumeric_cases hc with hc | hc | hc
    · simp [opensNumber, CodePoint.isDigitValued, hc] at ho
    · exact .inl hc
    · exact .inr hc.2.2.2
  rcases hcases with ⟨hplain, hdigit, hstart⟩ | hc
  · obtain ⟨n, hn, hreads⟩ := exists_word h hplain hdigit hstart
    exact ⟨.name, n, hn, hreads, .inr ⟨.inr rfl, c, by simp, isLoose_of_isNameStart hstart⟩⟩
  · obtain ⟨n, hn, hlength⟩ := exists_punctuatorLength hc h.punct
    exact ⟨.punct, n, hn, fun _ => .punct ho hlength, .inl rfl⟩

/-- how many points a text ends with -/
def endPoints (t : Text) : Nat := runLength (· = .char '.') t.reverse

theorem endPoints_append_point (t : Text) :
    endPoints (t ++ Text.ofString ".") = endPoints t + 1 := by
  rw [endPoints, List.reverse_append]
  exact runLength_cons.trans (if_pos rfl)

theorem endPoints_append_points (t : Text) :
    endPoints (t ++ Text.ofString "...") = endPoints t + 3 := by
  have h :
      t ++ Text.ofString "..." = ((t ++ Text.ofString ".") ++ Text.ofString ".") ++
        Text.ofString "." := by
    simp [Text.ofString]
  rw [h, endPoints_append_point, endPoints_append_point, endPoints_append_point]

theorem endPoints_eq_zero {t : Text} : endPoints t = 0 ↔ t.getLast? ≠ some (.char '.') := by
  rw [endPoints, runLength_eq_zero, Stops, List.head?_reverse]
  constructor
  · intro h hlast
    exact absurd (h _ hlast) (by decide)
  · intro h c hc
    rw [decide_eq_false_iff_not]
    rintro rfl
    exact h hc

end Lexical

namespace Lexeme

/-- the text is cut into the lexemes where `rest` comes behind it, and they are punctuators, or
numbers and names where not all of the text is loose -/
structure Scraps (u rest : Text) (ls : List Lexeme) : Prop where
  text : textOf ls = u
  cuts : ∀ ctx, Cuts ctx ls rest
  kinds : ∀ l ∈ ls, l.front = .token .punct ∨
    (l.front = .token .number ∨ l.front = .token .name) ∧ ∃ c ∈ u, isLoose c = false
  chars : ∀ c ∈ u, isLoose c = true ∨ isNumeric c = true

variable {ctx : Token.Context} {u rest t : Text} {ls a b : List Lexeme} {kind : Token.Kind}

theorem exists_scraps : ∀ {u : Text}, Borders u rest → ∃ ls, Scraps u rest ls
  | [], _ => ⟨[], rfl, fun _ => trivial, by simp, by simp⟩
  | c :: u, h => by
    obtain ⟨kind, k, hk, hreads, hkind⟩ := exists_scrap h
    have hdrop : Borders (u.drop k) rest := h.drop (k + 1)
    obtain ⟨ls, htext, hcuts, hkinds, -⟩ := exists_scraps hdrop
    refine ⟨⟨.token kind, c :: u.take k⟩ :: ls, ?_, fun ctx => ⟨⟨c, u.take k, rfl, ?_⟩, hcuts _⟩,
      ?_, h.chars⟩
    · rw [textOf_cons, htext, List.cons_append, List.take_append_drop]
    · rw [htext, ← List.append_assoc, List.take_append_drop, List.length_take_of_le hk]
      exact hreads ctx
    · refine List.forall_mem_cons.2 ⟨?_, fun l hl => (hkinds l hl).imp_right (And.imp_right ?_)⟩
      · rcases hkind with rfl | ⟨rfl | rfl, hloose⟩
        · exact .inl rfl
        · exact .inr ⟨.inl rfl, hloose⟩
        · exact .inr ⟨.inr rfl, hloose⟩
      · rintro ⟨d, hd, hloose⟩
        exact ⟨d, List.mem_cons_of_mem _ (List.mem_of_mem_drop hd), hloose⟩
termination_by u => u.length
decreasing_by
  rw [List.length_drop, List.length_cons]
  omega

theorem contextAfter_append : contextAfter ctx (a ++ b) = contextAfter (contextAfter ctx a) b := by
  induction a generalizing ctx with
  | nil => rfl
  | cons l a ih => exact ih

/-- no name holds a point -/
theorem point_not_mem_of_name (h : Token.Readable .name t) : CodePoint.char '.' ∉ t := by
  obtain ⟨ctx, c, t, rest, rfl, h⟩ := h
  generalize hn : t.length = n at h
  generalize hr : t ++ rest = r at h
  generalize hf : Token.Front.token .name = f at h
  have hpart : ∀ {t : Text}, t.all isNamePart = true → CodePoint.char '.' ∉ t := fun hall hmem =>
    absurd (List.all_eq_true.1 hall _ hmem) (by decide)
  cases h with
  | word hc hd hs =>
    subst hr
    rw [List.mem_cons, not_or]
    refine ⟨?_, hpart (runLength_append.1 hn.symm).1⟩
    rintro rfl
    exact absurd hs (by decide)
  | hidden hc hh =>
    subst hr hc
    rw [List.mem_cons, not_or]
    exact ⟨by decide, hpart (runLength_append.1 hn.symm).1⟩
  | bracket hk => cases hf; unfold bracketKind? at hk; grind
  | resume => split at hf <;> cases hf
  | template => split at hf <;> cases hf
  | _ => cases hf

namespace Scraps

theorem braces (h : Scraps u rest ls) (ctx : Token.Context) :
    (contextAfter ctx ls).braces = ctx.braces ∧ (contextAfter ctx ls).parens = ctx.parens := by
  have hkinds : ∀ l ∈ ls, l.front = .token .punct ∨ l.front = .token .number ∨
      l.front = .token .name :=
    fun l hl => (h.kinds l hl).imp_right And.left
  clear h
  induction ls generalizing ctx with
  | nil => exact ⟨rfl, rfl⟩
  | cons l ls ih =>
    obtain ⟨hl, hls⟩ := List.forall_mem_cons.1 hkinds
    have hcontext : (l.context ctx).braces = ctx.braces ∧ (l.context ctx).parens = ctx.parens := by
      rcases hl with hl | hl | hl <;> · rw [context, hl]; exact ⟨rfl, rfl⟩
    obtain ⟨hbraces, hparens⟩ := ih (l.context ctx) hls
    exact ⟨hbraces.trans hcontext.1, hparens.trans hcontext.2⟩

/-- the last scrap, of which the context behind tells -/
theorem exists_last (h : Scraps u rest ls) (hu : u ≠ []) : ∃ kind t, t <:+ u ∧
    Token.Readable kind t ∧
    (kind = .punct ∨ (kind = .number ∨ kind = .name) ∧ ∃ c ∈ u, isLoose c = false) ∧
      ∀ ctx, ∃ ctx' : Token.Context, contextAfter ctx ls = ctx'.after kind t := by
  obtain ⟨init, l, rfl⟩ : ∃ init l, ls = init ++ [l] := by
    rcases List.eq_nil_or_concat ls with rfl | ⟨init, l, rfl⟩
    · exact absurd h.text.symm hu
    · exact ⟨init, l, by simp⟩
  have hsuffix : l.text <:+ u := ⟨textOf init, by rw [← h.text]; simp⟩
  obtain ⟨c, t, ht, hreads⟩ := (cuts_append.1 (h.cuts {})).2.1
  have hkind := h.kinds l (by simp)
  have hlast : ∀ kind, l.front = .token kind → Token.Readable kind l.text ∧
      ∀ ctx, ∃ ctx' : Token.Context, contextAfter ctx (init ++ [l]) = ctx'.after kind l.text := by
    intro kind hfront
    rw [hfront] at hreads
    refine ⟨⟨_, c, t, _, ht, hreads⟩, fun ctx => ⟨contextAfter ctx init, ?_⟩⟩
    rw [contextAfter_append, contextAfter, contextAfter, context, hfront]
  rcases hkind with hl | ⟨hl | hl, hloose⟩
  · exact ⟨_, _, hsuffix, (hlast _ hl).1, .inl rfl, (hlast _ hl).2⟩
  · exact ⟨_, _, hsuffix, (hlast _ hl).1, .inr ⟨.inl rfl, hloose⟩, (hlast _ hl).2⟩
  · exact ⟨_, _, hsuffix, (hlast _ hl).1, .inr ⟨.inr rfl, hloose⟩, (hlast _ hl).2⟩

/-- no scrap is the head of a statement -/
theorem namesHead (h : Scraps u rest ls) (hu : u ≠ []) (ctx : Token.Context) :
    (contextAfter ctx ls).namesHead = false := by
  obtain ⟨kind, t, hsuffix, -, hkind, hafter⟩ := h.exists_last hu
  obtain ⟨ctx', hctx⟩ := hafter ctx
  rw [hctx]
  rcases hkind with rfl | ⟨rfl | rfl, -⟩
  · rfl
  · rfl
  · have hforeign : ∀ w ∈ Token.headWords, ∃ c ∈ w, isLoose c = false ∧ isNumeric c = false := by
      decide
    show Token.headWords.contains t = false
    rw [List.contains_eq_mem, decide_eq_false_iff_not]
    intro ht
    obtain ⟨c, hc, hloose, hnumeric⟩ := hforeign t ht
    rcases h.chars c (hsuffix.subset hc) with hc | hc
    · rw [hloose] at hc
      cases hc
    · rw [hnumeric] at hc
      cases hc

/-- behind loose punctuators a slash begins a regular expression -/
theorem regex_of_loose (h : Scraps u rest ls) (hu : u ≠ []) (hloose : ∀ c ∈ u, isLoose c = true)
    (ctx : Token.Context) : (contextAfter ctx ls).slashOpensRegex = true := by
  obtain ⟨kind, t, hsuffix, -, hkind, hafter⟩ := h.exists_last hu
  obtain ⟨ctx', hctx⟩ := hafter ctx
  have hpunct : kind = .punct := hkind.resolve_right fun ⟨_, c, hc, hnot⟩ => by
    rw [hloose c hc] at hnot
    cases hnot
  have htwo : ∀ s ∈ [Text.ofString "++", Text.ofString "--"], ∃ c ∈ s, isLoose c = false := by
    decide
  have hne : ∀ s ∈ [Text.ofString "++", Text.ofString "--"], t ≠ s := by
    rintro s hs rfl
    obtain ⟨c, hc, hnot⟩ := htwo _ hs
    rw [hloose c (hsuffix.subset hc)] at hnot
    cases hnot
  rw [hctx, hpunct]
  show (t != Text.ofString "++" && t != Text.ofString "--") = true
  rw [Bool.and_eq_true, bne_iff_ne, bne_iff_ne]
  exact ⟨hne _ (by simp), hne _ (by simp)⟩

/-- the last scrap ends like the text -/
theorem getLast?_of_suffix (hsuffix : t <:+ u) (ht : Token.Readable kind t) :
    t.getLast? = u.getLast? := by
  obtain ⟨_, c, r, _, rfl, -⟩ := ht
  obtain ⟨a, rfl⟩ := hsuffix
  rw [List.getLast?_append_of_ne_nil _ (List.cons_ne_nil c r)]

/-- a scrap that is a punctuator is none of those with a slash -/
theorem mem_punctuators (h : Scraps u rest ls) (hsuffix : t <:+ u) (ht : Token.Readable .punct t) :
    t ∈ punctuators := by
  refine Piece.mem_punctuators ht fun hslash => ?_
  rcases h.chars _ (hsuffix.subset (List.mem_of_mem_head? hslash)) with hc | hc
  · exact absurd hc (by decide)
  · exact absurd hc (by decide)

/-- a name behind one or two points names a member -/
theorem namesMember_of_points (h : Scraps u rest ls) (hloose : ∀ c ∈ u, isLoose c = true)
    (hpos : endPoints u ≠ 0) (hlt : endPoints u < 3) (ctx : Token.Context) :
    (contextAfter ctx ls).namesMember = true := by
  have hlast : u.getLast? = some (.char '.') := by
    by_contra hne
    exact hpos (endPoints_eq_zero.2 hne)
  obtain ⟨kind, t, hsuffix, hread, hkind, hafter⟩ := h.exists_last (by rintro rfl; cases hlast)
  obtain ⟨ctx', hctx⟩ := hafter ctx
  obtain rfl : kind = .punct := hkind.resolve_right fun ⟨_, c, hc, hnot⟩ => by
    rw [hloose c hc] at hnot
    cases hnot
  have hthree : ∀ q ∈ punctuators, q.getLast? = some (.char '.') →
      q = Text.ofString "." ∨ q = Text.ofString "?." ∨ q = Text.ofString "..." := by decide
  have hend := (getLast?_of_suffix hsuffix hread).trans hlast
  rw [hctx]
  rcases hthree t (h.mem_punctuators hsuffix hread) hend with rfl | rfl | rfl
  · rfl
  · rfl
  · obtain ⟨a, rfl⟩ := hsuffix
    rw [endPoints_append_points] at hlt
    omega

/-- behind a number that has been cut anew, and that does not end with a point, a slash is a
division -/
theorem regex_of_number {a m : Text} (h : Scraps (a ++ m) rest ls)
    (ha : a.getLast? = some (.char '.')) (hm : m ≠ [])
    (hnumber : numberLength m = m.length) (hend : m.getLast? ≠ some (.char '.'))
    (ctx : Token.Context) : (contextAfter ctx ls).slashOpensRegex = false := by
  obtain ⟨kind, t, hsuffix, hread, hkind, hafter⟩ := h.exists_last (by simp [hm])
  obtain ⟨ctx', hctx⟩ := hafter ctx
  have hlast := getLast?_of_suffix hsuffix hread
  rw [List.getLast?_append_of_ne_nil _ hm] at hlast
  rw [hctx]
  rcases hkind with rfl | ⟨rfl | rfl, -⟩
  · -- no punctuator ends like a number does
    have hends : ∀ q ∈ punctuators, ∀ c ∈ q.getLast?, isHexPart c = false ∧ c ≠ .char 'n' := by
      decide
    obtain ⟨c, hc⟩ : ∃ c, m.getLast? = some c := by
      cases hcase : m.getLast? with
      | none => exact absurd (List.getLast?_eq_none_iff.1 hcase) hm
      | some c => exact ⟨c, rfl⟩
    obtain ⟨hhex, hn⟩ := hends t (h.mem_punctuators hsuffix hread) c (hlast.trans hc)
    rcases getLast?_of_number hnumber c hc with hc' | rfl | rfl
    · rw [hhex] at hc'
      cases hc'
    · exact absurd hc hend
    · exact absurd rfl hn
  · rfl
  · -- a name holds no point, so it is the end of the number
    have hm' : t <:+ m := by
      rcases List.suffix_or_suffix_of_suffix hsuffix (List.suffix_append a m) with hle | ⟨b, rfl⟩
      · exact hle
      · obtain ⟨d, hd⟩ := hsuffix
        obtain rfl : d ++ b = a := List.append_cancel_right (by rw [List.append_assoc, hd])
        cases hb : b with
        | nil => exact List.suffix_refl m
        | cons e b' =>
          have hpoint : CodePoint.char '.' ∈ b := by
            rw [List.getLast?_append_of_ne_nil _ (by simp [hb])] at ha
            exact List.mem_of_getLast? ha
          exact absurd (List.mem_append_left m hpoint) (point_not_mem_of_name hread)
    obtain ⟨b, hb⟩ := hm'
    have hword := not_operator_of_number hnumber hb.symm
    show Token.operatorWords.contains t = false
    simpa [List.contains_eq_mem] using hword

end Scraps

end Lexeme

end Relocation
