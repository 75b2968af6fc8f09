import Relocation.Proofs.Filler

/-!
# Moving a token

A token that is read in one place is read in another one as well if the context admits it there
(`Admits`), what follows does not run into it (`Apart`) and, for the word `module`, looking ahead
for a brace gives the same answer (`Reads.move`).
-/

namespace Relocation.Token.Context

open Lexical

variable {ctx ctx' : Context} {c : CodePoint} {t rest rest' : Text} {kind : Kind}

/-- may a token of the kind stand in the context? -/
def Admits (ctx : Context) (kind : Kind) (text : Text) : Prop :=
  match kind with
  | .regex => ctx.slashOpensRegex = true
  | .punct => text.head? = some (.char '/') → ctx.slashOpensRegex = false
  | .closeBrace => ctx.braces.head? ≠ some .template
  | .templateMiddle | .templateTail => ctx.braces.head? = some .template
  | .module => ctx.namesMember = false
  | _ => True

/-- what follows does not run into the token -/
def Apart (kind : Kind) (text rest : Text) : Prop :=
  match kind with
  | .name | .module => Stops isNamePart rest
  | .number => numberLength (text ++ rest) = text.length
  | .regex => Stops isFlag rest
  | .punct =>
    if text.head? = some (.char '/') then
      text = Text.ofString "/" → opensComment rest = false ∧ rest.head? ≠ some (.char '=')
    else punctuatorLength? (text ++ rest) = some text.length ∧
      (text = Text.ofString "." → rest.head?.any (·.isDigitValued) = false)
  | _ => True

/-- looking ahead from the word `module` tells the keyword from the name -/
def Foresees (ctx : Context) (kind : Kind) (text rest : Text) : Prop :=
  (kind = .module → leadsToBrace false rest = true) ∧
    (kind = .name → text = Text.ofString "module" → leadsToBrace false rest = true →
      ctx.namesMember = true)

theorem isNamePart_of_isNameStart (h : isNameStart c = true) : isNamePart c = true := by
  simp only [isNameStart, isNamePart, Bool.or_eq_true, Bool.and_eq_true] at h ⊢
  tauto

/-- a number takes more than a point -/
theorem numberLength_point (r : Text) : numberLength (.char '.' :: r) ≠ 1 := by
  have hradix : radixLength (.char '.' :: r) = 0 := by
    cases r with
    | nil => rfl
    | cons d r => rw [radixLength_cons_cons, if_neg (by decide)]
  rw [numberLength_eq, unsuffixedLength, if_pos hradix]
  cases r with
  | nil => decide
  | cons d r =>
    rw [mantissaLength_point]
    by_cases hd : d.isDecimal = true
    · rw [if_pos hd, if_neg (by omega)]
      omega
    · have he : exponentLength (.char '.' :: d :: r) = 0 := by
        rw [exponentLength_cons, if_neg (by decide)]
      rw [if_neg hd, List.drop_zero, he, if_pos rfl]
      decide

theorem nameKind_eq_module : ctx.nameKind (c :: t) rest = .module ↔
    c :: t = Text.ofString "module" ∧ leadsToBrace false rest = true ∧ ctx.namesMember = false := by
  simp [nameKind, and_assoc]

theorem nameKind_eq_name : ctx.nameKind (c :: t) rest = .name ↔
    (c :: t = Text.ofString "module" → leadsToBrace false rest = true →
      ctx.namesMember = true) := by
  simp [nameKind]

theorem nameKind_cases (ctx : Context) (text rest : Text) :
    ctx.nameKind text rest = .module ∨ ctx.nameKind text rest = .name := by
  unfold nameKind
  split
  · exact .inl rfl
  · exact .inr rfl

/-- where a string is read, its scanner ends -/
theorem Reads.of_string (h : Reads ctx c r (.token .string) n) :
    (c = .char '"' ∨ c = .char '\'') ∧ stringLength? c r = some n := by
  generalize hf : Front.token .string = f at h
  cases h with
  | string hc hm => exact ⟨hc, hm⟩
  | bracket hk => cases hf; unfold bracketKind? at hk; grind
  | resume => split at hf <;> cases hf
  | template => split at hf <;> cases hf
  | word => rcases nameKind_cases ctx _ _ with hk | hk <;> · rw [hk] at hf; cases hf
  | _ => cases hf

/-- and so it does where a regular expression is read -/
theorem Reads.of_regex (h : Reads ctx c r (.token .regex) n) :
    c = .char '/' ∧ opensComment r = false ∧ regexLength? false r = some n := by
  generalize hf : Front.token .regex = f at h
  cases h with
  | regex hc ho hs hm => exact ⟨hc, ho, hm⟩
  | bracket hk => cases hf; unfold bracketKind? at hk; grind
  | resume => split at hf <;> cases hf
  | template => split at hf <;> cases hf
  | word => rcases nameKind_cases ctx _ _ with hk | hk <;> · rw [hk] at hf; cases hf
  | _ => cases hf

/-- everything that reading a token says about the place -/
theorem Reads.place (h : Reads ctx c (t ++ rest) (.token kind) t.length) :
    Admits ctx kind (c :: t) ∧ Apart kind (c :: t) rest ∧ Foresees ctx kind (c :: t) rest := by
  generalize hn : t.length = n at h
  generalize hr : t ++ rest = r at h
  generalize hf : Front.token kind = f at h
  cases h with
  | blanks => cases hf
  | terminator => cases hf
  | line => cases hf
  | comment => cases hf
  | bracket hk =>
    cases hf
    unfold bracketKind? at hk
    grind [Admits, Apart, Foresees]
  | closeBrace hc hb =>
    cases hf
    exact ⟨hb, trivial, by simp [Foresees]⟩
  | resume hc hb hm =>
    rename_i opens
    cases hf
    cases opens
    · exact ⟨hb, trivial, by simp [Foresees]⟩
    · exact ⟨hb, trivial, by simp [Foresees]⟩
  | template hc hm =>
    rename_i opens
    cases hf
    cases opens
    · exact ⟨trivial, trivial, by simp [Foresees]⟩
    · exact ⟨trivial, trivial, by simp [Foresees]⟩
  | string hc hm =>
    cases hf
    exact ⟨trivial, trivial, by simp [Foresees]⟩
  | number hc ho hm =>
    cases hf
    subst hr hn
    exact ⟨trivial, hm, by simp [Foresees]⟩
  | word hc hd hs =>
    subst hr
    have hstop : Stops isNamePart rest := (runLength_append.1 hn.symm).2
    rw [← hn, List.take_left, List.drop_left] at hf
    obtain rfl := Front.token.inj hf
    rcases nameKind_cases ctx (c :: t) rest with hk | hk
    · rw [hk]
      obtain ⟨-, hlead, hmember⟩ := nameKind_eq_module.1 hk
      exact ⟨hmember, hstop, by simp [Foresees, hlead]⟩
    · rw [hk]
      exact ⟨trivial, hstop, by simpa [Foresees] using nameKind_eq_name.1 hk⟩
  | hidden hc hh =>
    cases hf
    subst hr
    exact ⟨trivial, (runLength_append.1 hn.symm).2, by simp [Foresees, hc, Text.ofString]⟩
  | regex hc hs hre hm =>
    cases hf
    subst hr hn
    have hstop := (regexLength?_spec hm).2.2.1
    rw [List.drop_left] at hstop
    exact ⟨hre, hstop, by simp [Foresees]⟩
  | slash hc hs hre =>
    cases hf
    subst hr hc
    refine ⟨fun _ => hre, ?_, by simp [Foresees]⟩
    simp only [Apart, List.head?_cons, if_true]
    intro ht
    obtain rfl : t = [] := by simpa [Text.ofString] using ht
    refine ⟨hs, fun he => ?_⟩
    rw [List.nil_append, if_pos he] at hn
    cases hn
  | punct ho hm =>
    cases hf
    subst hr
    obtain ⟨-, -, -, hslash⟩ := isPlain_of_punctuator hm
    refine ⟨fun he => absurd (Option.some.inj he) hslash, ?_, by simp [Foresees]⟩
    rw [Apart, if_neg (by simpa using hslash)]
    refine ⟨by rw [List.cons_append, hm, List.length_cons, hn], fun ht => ?_⟩
    obtain ⟨rfl, rfl⟩ : c = .char '.' ∧ t = [] := by simpa [Text.ofString] using ht
    simpa [opensNumber] using (by simpa [opensNumber] using ho : _ ∧ _).2

/-! ## the same token in front of another text -/

theorem opensNumber_of_numberLength (h : opensNumber c (t ++ rest) = true)
    (hlen : numberLength (c :: (t ++ rest')) = t.length + 1) :
    opensNumber c (t ++ rest') = true := by
  by_cases hd : c.isDigitValued = true
  · simp [opensNumber, hd]
  · cases t with
    | nil =>
      obtain ⟨rfl, -⟩ : c = .char '.' ∧ _ := by simpa [opensNumber, hd] using h
      exact absurd hlen (numberLength_point _)
    | cons d t => simpa [opensNumber] using h

theorem not_opensNumber_of_point (h : opensNumber c (t ++ rest) = false)
    (hpoint : c :: t = Text.ofString "." → rest'.head?.any (·.isDigitValued) = false) :
    opensNumber c (t ++ rest') = false := by
  simp only [opensNumber, Bool.or_eq_false_iff] at h ⊢
  refine ⟨h.1, ?_⟩
  cases t with
  | nil =>
    by_cases hc : c = .char '.'
    · subst hc
      simpa using hpoint rfl
    · simp [hc]
  | cons d t => simpa using h.2

/-- a name goes on behind its number sign -/
theorem isNameStart_of_stops (h : (t ++ rest).head?.any isNameStart = true)
    (hstop : Stops isNamePart rest) : (t ++ rest').head?.any isNameStart = true := by
  cases t with
  | cons d t => simpa using h
  | nil =>
    cases rest with
    | nil => simp at h
    | cons d rest =>
      have hd : isNameStart d = true := by simpa using h
      rw [stops_cons, isNamePart_of_isNameStart hd] at hstop
      cases hstop

theorem Reads.word_of_runLength (hc : isPlain c = true) (hd : c.isDigitValued = false)
    (hs : isNameStart c = true) (hrun : runLength isNamePart (t ++ rest) = t.length) :
    Reads ctx c (t ++ rest) (.token (ctx.nameKind (c :: t) rest)) t.length := by
  have h : ctx.Reads c (t ++ rest) _ _ := .word hc hd hs
  rwa [hrun, List.take_left, List.drop_left] at h

theorem Reads.hidden_of_runLength (hc : c = .char '#')
    (hr : (t ++ rest).head?.any isNameStart = true)
    (hrun : runLength isNamePart (t ++ rest) = t.length) :
    Reads ctx c (t ++ rest) (.token .name) t.length := by
  have h : ctx.Reads c (t ++ rest) _ _ := .hidden hc hr
  rwa [hrun] at h

theorem Reads.slash_of_apart (hs : ctx.slashOpensRegex = false)
    (ho : opensComment (t ++ rest) = false)
    (hn : (if (t ++ rest).head? = some (.char '=') then 1 else 0) = t.length)
    (hp : Apart .punct (.char '/' :: t) rest') :
    Reads ctx (.char '/') (t ++ rest') (.token .punct) t.length := by
  simp only [Apart, List.head?_cons, if_true] at hp
  cases t with
  | nil =>
    obtain ⟨hcomment, heq⟩ := hp rfl
    have h : ctx.Reads (.char '/') rest' _ _ := .slash rfl hcomment hs
    rw [if_neg heq] at h
    exact h
  | cons d t =>
    rw [← hn]
    exact Reads.slash (r := d :: t ++ rest') rfl (by simpa [opensComment] using ho) hs

/-- a token that is read somewhere is read wherever the place allows it -/
theorem Reads.move (h : Reads ctx c (t ++ rest) (.token kind) t.length)
    (ha : Admits ctx' kind (c :: t)) (hp : Apart kind (c :: t) rest')
    (hs : Foresees ctx' kind (c :: t) rest') :
    Reads ctx' c (t ++ rest') (.token kind) t.length := by
  generalize hn : t.length = n at h ⊢
  generalize hr : t ++ rest = r at h
  generalize hf : Front.token kind = f at h
  cases h with
  | blanks => cases hf
  | terminator => cases hf
  | line => cases hf
  | comment => cases hf
  | bracket hk =>
    cases hf
    exact .bracket hk
  | closeBrace hc hb =>
    cases hf
    exact .closeBrace hc ha
  | resume hc hb hm =>
    rename_i opens
    have hb' : ctx'.braces.head? = some .template := by
      cases opens <;> · cases hf; exact ha
    refine .resume hc hb' ?_
    have := (templateLength?_spec hm).2.2 rest'
    rwa [← hr, ← hn, List.take_left, hn] at this
  | template hc hm =>
    refine .template hc ?_
    have := (templateLength?_spec hm).2.2 rest'
    rwa [← hr, ← hn, List.take_left, hn] at this
  | string hc hm =>
    refine .string hc ?_
    have := (stringLength?_spec (by rcases hc with rfl | rfl <;> decide) hm).2.2 rest'
    rwa [← hr, ← hn, List.take_left, hn] at this
  | number hc ho hm =>
    cases hf
    subst hn
    have hlen : numberLength (c :: (t ++ rest')) = t.length + 1 := hp
    subst hr
    exact .number hc (opensNumber_of_numberLength ho hlen) hlen
  | word hc hd hs' =>
    subst hr
    have hall := (runLength_append.1 hn.symm).1
    have hkind : kind = .module ∨ kind = .name := by
      obtain rfl := Front.token.inj hf
      exact nameKind_cases _ _ _
    have hstop : Stops isNamePart rest' := by rcases hkind with rfl | rfl <;> exact hp
    have hrun : runLength isNamePart (t ++ rest') = t.length := runLength_append.2 ⟨hall, hstop⟩
    have hkind' : ctx'.nameKind (c :: t) rest' = kind := by
      rcases hkind with rfl | rfl
      · rw [← hn, List.take_left, List.drop_left] at hf
        exact nameKind_eq_module.2 ⟨(nameKind_eq_module.1 (Front.token.inj hf).symm).1,
          hs.1 rfl, ha⟩
      · exact nameKind_eq_name.2 (hs.2 rfl)
    rw [← hf, ← hn, ← hkind']
    exact .word_of_runLength hc hd hs' hrun
  | hidden hc hh =>
    cases hf
    subst hr
    obtain ⟨hall, hstop⟩ := runLength_append.1 hn.symm
    rw [← hn]
    exact .hidden_of_runLength hc (isNameStart_of_stops hh hstop) (runLength_append.2 ⟨hall, hp⟩)
  | regex hc ho hre hm =>
    cases hf
    subst hr hn
    have hpos := (regexLength?_spec hm).1
    have hm' := (regexLength?_spec hm).2.2.2 rest' hp
    rw [List.take_left] at hm'
    refine .regex hc ?_ ha hm'
    obtain ⟨d, t, rfl⟩ := List.exists_cons_of_length_pos hpos
    simpa [opensComment] using ho
  | slash hc ho hre =>
    cases hf
    subst hr hc
    rw [← hn]
    exact .slash_of_apart (ha rfl) ho hn.symm hp
  | punct ho hm =>
    cases hf
    subst hr
    obtain ⟨-, -, -, hslash⟩ := isPlain_of_punctuator hm
    rw [Apart, if_neg (by simpa using hslash)] at hp
    obtain ⟨hp, hpoint⟩ := hp
    rw [← hn]
    exact .punct (not_opensNumber_of_point ho hpoint) hp

/-! ## cutting a text off before a closing brace -/

theorem stops_of_append {p : CodePoint → Bool} {a b : Text} (h : Stops p (a ++ b)) : Stops p a := by
  cases a with
  | nil => simp
  | cons c a => simpa using h

theorem apart_of_brace (h : Apart kind (c :: t) (rest ++ .char '\x7d' :: rest')) :
    Apart kind (c :: t) rest := by
  unfold Apart at h ⊢
  split at h
  · exact stops_of_append h
  · exact stops_of_append h
  · rw [← List.append_assoc, numberLength_append_of_bounded (by intro c hc; cases hc; decide)] at h
    exact h
  · exact stops_of_append h
  · split at h
    · rw [if_pos ‹_›]
      intro ht
      obtain ⟨hcomment, heq⟩ := h ht
      cases rest with
      | nil => exact ⟨rfl, by simp⟩
      | cons d rest => exact ⟨by simpa [opensComment] using hcomment, by simpa using heq⟩
    · rw [if_neg ‹_›]
      obtain ⟨hp, hpoint⟩ := h
      rw [← List.append_assoc] at hp
      refine ⟨punctuatorLength?_of_brace hp, fun ht => ?_⟩
      cases rest with
      | nil => rfl
      | cons d rest => simpa using hpoint ht
  · trivial

/-- a gap is a gap with less of the text behind it -/
theorem Reads.gap_of_brace (h : Reads ctx c (t ++ (rest ++ .char '\x7d' :: rest')) .gap t.length) :
    Reads ctx' c (t ++ rest) .gap t.length := by
  refine h.gap_move stops_of_append (fun h => .inl ?_) stops_of_append
  cases rest with
  | nil => cases h
  | cons d rest => exact h

end Relocation.Token.Context
