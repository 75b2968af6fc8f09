import Relocation.Proofs.Resumption

/-!
# Regular expressions

`IsPattern` says what may stand between the slashes of a regular expression, place by place: whether
a backslash escapes what comes next (`Escaping`) and whether it stands in a class (`InClass`) can be
told from what comes before it.  The scanner, which goes from left to right and remembers only
whether a class is open, ends at a slash just where a pattern does (`regexLength?_eq_some`).  Line
terminators are the one thing that it lets a backslash escape against the rules of the language
(`TokenStream.regex_ofText`).
-/

namespace Relocation

namespace Lexical

/-- how many backslashes stand at the end -/
def backslashes (t : Text) : Nat := runLength (· = .char '\\') t.reverse

/-- the last backslash escapes what comes next: the ones before it escape each other in pairs -/
def Escaping (t : Text) : Prop := backslashes t % 2 = 1

instance : DecidablePred Escaping := fun t => inferInstanceAs (Decidable (backslashes t % 2 = 1))

/-- no square bracket in the text closes a class that is open before it -/
def Unclosed (t : Text) : Prop := ∀ a b, t = a ++ .char ']' :: b → Escaping a

/-- what comes next stands in a class -/
def InClass (t : Text) : Prop := ∃ a b, t = a ++ .char '[' :: b ∧ ¬ Escaping a ∧ Unclosed b

/-- what may stand between the slashes of a regular expression -/
structure IsPattern (body : Text) : Prop where
  slash : ∀ a b, body = a ++ .char '/' :: b → Escaping a ∨ InClass a
  /-- only a backslash lets a line terminator in -/
  terminator : ∀ c : CodePoint, c.isLineTerminator = true → ∀ a b, body = a ++ c :: b → Escaping a
  /-- the closing slash is not escaped -/
  bare : ¬ Escaping body
  /-- the closing slash is in no class -/
  outside : ¬ InClass body

variable {c d : CodePoint} {a t r : Text} {opened : Bool} {n : Nat}

/-! ## escapes and classes from left to right -/

theorem not_escaping_nil : ¬ Escaping [] := by decide

theorem escaping_backslash : Escaping [.char '\\'] := by decide

/-- a run goes on behind a text that it fills -/
theorem runLength_append_eq (p : CodePoint → Bool) (a r : Text) :
    runLength p (a ++ r) = runLength p a + if a.all p then runLength p r else 0 := by
  induction a with
  | nil => simp
  | cons c a ih =>
    rw [List.cons_append, runLength_cons, runLength_cons, List.all_cons, ih]
    by_cases hc : p c = true
    · simp only [hc, if_true, Bool.true_and]
      omega
    · simp [hc]

/-- what is complete in front changes nothing -/
theorem escaping_append (ha : ¬ Escaping a) : Escaping (a ++ t) ↔ Escaping t := by
  unfold Escaping backslashes at ha ⊢
  rw [List.reverse_append, runLength_append_eq]
  split <;> omega

theorem not_escaping_singleton (hc : c ≠ .char '\\') : ¬ Escaping [c] := by
  simp [Escaping, backslashes, runLength_cons, hc]

theorem not_escaping_pair (c : CodePoint) : ¬ Escaping [.char '\\', c] := by
  by_cases hc : c = .char '\\' <;> simp [Escaping, backslashes, runLength_cons, hc]

theorem escaping_cons (hc : c ≠ .char '\\') : Escaping (c :: t) ↔ Escaping t :=
  escaping_append (not_escaping_singleton hc)

theorem escaping_pair : Escaping (.char '\\' :: c :: t) ↔ Escaping t :=
  escaping_append (not_escaping_pair c)

variable {P : Text → Prop} {Q : Text → Text → Prop}

/-- the places of a character: the first one, and those further on -/
theorem forall_place_cons : (∀ a b, c :: t = a ++ d :: b → P a) ↔ (c = d → P []) ∧
    ∀ a b, t = a ++ d :: b → P (c :: a) := by
  constructor
  · intro h
    refine ⟨fun hc => h [] t (by rw [hc]; rfl), fun a b ht => h (c :: a) b (by rw [ht]; rfl)⟩
  · rintro ⟨hfirst, hrest⟩ a b ht
    cases a with
    | nil => exact hfirst (List.cons.inj ht).1
    | cons e a =>
      obtain ⟨rfl, hrest'⟩ := List.cons.inj ht
      exact hrest a b hrest'

/-- a place of a character is the first one, or one further on -/
theorem exists_place_cons :
    (∃ a b, c :: t = a ++ d :: b ∧ Q a b) ↔ c = d ∧ Q [] t ∨ ∃ a b, t = a ++ d :: b ∧
    Q (c :: a) b := by
  constructor
  · rintro ⟨a, b, ht, h⟩
    cases a with
    | nil =>
      obtain ⟨rfl, rfl⟩ := List.cons.inj ht
      exact .inl ⟨rfl, h⟩
    | cons e a =>
      obtain ⟨rfl, hrest⟩ := List.cons.inj ht
      exact .inr ⟨a, b, hrest, h⟩
  · rintro (⟨rfl, h⟩ | ⟨a, b, rfl, h⟩)
    · exact ⟨[], t, rfl, h⟩
    · exact ⟨c :: a, b, rfl, h⟩

theorem unclosed_cons (hc : c ≠ .char '\\') : Unclosed (c :: t) ↔ c ≠ .char ']' ∧ Unclosed t := by
  simp only [Unclosed, forall_place_cons, escaping_cons hc, not_escaping_nil, imp_false, ne_eq]

theorem unclosed_pair : Unclosed (.char '\\' :: c :: t) ↔ Unclosed t := by
  simp [Unclosed, forall_place_cons, escaping_pair, escaping_backslash]

theorem inClass_cons (hc : c ≠ .char '\\') : InClass (c :: t) ↔ c = .char '[' ∧ Unclosed t ∨
    InClass t := by
  simp only [InClass, exists_place_cons, escaping_cons hc, not_escaping_nil,
    not_false_eq_true, true_and]

theorem inClass_pair : InClass (.char '\\' :: c :: t) ↔ InClass t := by
  simp [InClass, exists_place_cons, escaping_pair, escaping_backslash]

/-- what comes next stands in a class, where one may be open before the text -/
def Enclosed (opened : Bool) (t : Text) : Prop := InClass t ∨ opened = true ∧ Unclosed t

/-- whether a class is open behind a character that is not escaped -/
def opensClass (opened : Bool) (c : CodePoint) : Bool := c = .char '[' || (c ≠ .char ']' && opened)

theorem enclosed_nil : Enclosed opened [] ↔ opened = true := by
  simp [Enclosed, InClass, Unclosed]

theorem enclosed_cons (hc : c ≠ .char '\\') : Enclosed opened (c :: t) ↔
    Enclosed (opensClass opened c) t := by
  rw [Enclosed, Enclosed, inClass_cons hc, unclosed_cons hc]
  simp only [opensClass, Bool.or_eq_true, Bool.and_eq_true, decide_eq_true_eq]
  tauto

theorem enclosed_pair : Enclosed opened (.char '\\' :: c :: t) ↔ Enclosed opened t := by
  rw [Enclosed, Enclosed, inClass_pair, unclosed_pair]

/-- what may stand between a place and the closing slash, where a class may be open at the place -/
structure PatternFrom (opened : Bool) (body : Text) : Prop where
  slash : ∀ a b, body = a ++ .char '/' :: b → Escaping a ∨ Enclosed opened a
  terminator : ∀ c : CodePoint, c.isLineTerminator = true → ∀ a b, body = a ++ c :: b → Escaping a
  bare : ¬ Escaping body
  outside : ¬ Enclosed opened body

theorem patternFrom_false : PatternFrom false t ↔ IsPattern t := by
  constructor
  · rintro ⟨h₁, h₂, h₃, h₄⟩
    simp only [Enclosed, Bool.false_eq_true, false_and, or_false] at h₁ h₄
    exact ⟨h₁, h₂, h₃, h₄⟩
  · rintro ⟨h₁, h₂, h₃, h₄⟩
    constructor <;> simpa only [Enclosed, Bool.false_eq_true, false_and, or_false]

theorem patternFrom_nil : PatternFrom opened [] ↔ opened = false := by
  constructor
  · intro h
    exact Bool.eq_false_iff.2 fun ho => h.outside (enclosed_nil.2 ho)
  · rintro rfl
    exact ⟨by simp, by simp, not_escaping_nil, by simp [enclosed_nil]⟩

theorem patternFrom_cons (hc : c ≠ .char '\\') : PatternFrom opened (c :: t) ↔
    c.isLineTerminator = false ∧ (c = .char '/' → opened = true) ∧
    PatternFrom (opensClass opened c) t := by
  constructor
  · rintro ⟨hslash, hterminator, hbare, houtside⟩
    simp only [forall_place_cons, escaping_cons hc, enclosed_cons hc]
      at hslash hterminator hbare houtside
    refine ⟨?_, ?_, hslash.2, fun d hd => (hterminator d hd).2, hbare, houtside⟩
    · exact Bool.eq_false_iff.2 fun hd => not_escaping_nil ((hterminator c hd).1 rfl)
    · intro hs
      exact enclosed_nil.1 ((hslash.1 hs).resolve_left not_escaping_nil)
  · rintro ⟨hplain, hopen, hslash, hterminator, hbare, houtside⟩
    constructor <;> simp only [forall_place_cons, escaping_cons hc, enclosed_cons hc]
    · exact ⟨fun hs => .inr (enclosed_nil.2 (hopen hs)), hslash⟩
    · intro d hd
      refine ⟨?_, hterminator d hd⟩
      rintro rfl
      exact absurd hd (by simp [hplain])
    · exact hbare
    · exact houtside

/-- a backslash and the character that it escapes stand anywhere in a pattern -/
theorem patternFrom_pair : PatternFrom opened (.char '\\' :: c :: t) ↔ PatternFrom opened t := by
  constructor
  · rintro ⟨hslash, hterminator, hbare, houtside⟩
    simp only [forall_place_cons, escaping_pair, enclosed_pair] at hslash hterminator hbare houtside
    exact ⟨hslash.2.2, fun d hd => (hterminator d hd).2.2, hbare, houtside⟩
  · rintro ⟨hslash, hterminator, hbare, houtside⟩
    constructor <;> simp only [forall_place_cons, escaping_pair, enclosed_pair]
    · exact ⟨fun h => absurd h (by decide), fun _ => .inl escaping_backslash, hslash⟩
    · intro d hd
      refine ⟨?_, fun _ => escaping_backslash, hterminator d hd⟩
      rintro rfl
      exact absurd hd (by decide)
    · exact hbare
    · exact houtside

/-! ## the scanner -/

/-- a pattern begins the text; `n` is how far it reaches, with the slash behind it and the flags
behind the slash -/
def EndsAt (opened : Bool) (t : Text) (n : Nat) : Prop :=
  ∃ body rest, t = body ++ .char '/' :: rest ∧ PatternFrom opened body ∧
    body.length + (1 + runLength isFlag rest) = n

theorem not_endsAt_nil : ¬ EndsAt opened [] n := by
  rintro ⟨body, rest, ht, -⟩
  exact absurd ht (by simp)

theorem endsAt_cons (hc : c ≠ .char '\\') : EndsAt opened (c :: t) n ↔
    c = .char '/' ∧ opened = false ∧ 1 + runLength isFlag t = n ∨
      c.isLineTerminator = false ∧ (c = .char '/' → opened = true) ∧
      ∃ m, EndsAt (opensClass opened c) t m ∧ m + 1 = n := by
  constructor
  · intro h
    rcases exists_place_cons.1 h with ⟨hslash, hnil, hn⟩ | ⟨body, rest, ht, hpattern, rfl⟩
    · exact .inl ⟨hslash, patternFrom_nil.1 hnil, by simpa using hn⟩
    · obtain ⟨hline, hopen, hpattern⟩ := (patternFrom_cons hc).1 hpattern
      exact .inr ⟨hline, hopen, _,
        ⟨body, rest, ht, hpattern, rfl⟩, by simp only [List.length_cons]; omega⟩
  · rintro (⟨hslash, hopen, rfl⟩ | ⟨hline, hopen, m, ⟨body, rest, ht, hpattern, rfl⟩, rfl⟩)
    · exact exists_place_cons.2 (.inl ⟨hslash, patternFrom_nil.2 hopen, by simp⟩)
    · refine exists_place_cons.2 (.inr ⟨body, rest, ht, (patternFrom_cons hc).2
        ⟨hline, hopen, hpattern⟩, ?_⟩)
      simp only [List.length_cons]
      omega

theorem endsAt_pair : EndsAt opened (.char '\\' :: c :: t) n ↔ ∃ m, EndsAt opened t m ∧
    m + 2 = n := by
  constructor
  · intro h
    rcases exists_place_cons.1 h with ⟨hslash, -⟩ | ⟨body, rest, ht, hpattern, rfl⟩
    · exact absurd hslash (by decide)
    · cases body with
      | nil => exact absurd escaping_backslash hpattern.bare
      | cons d body =>
        obtain ⟨rfl, hbody⟩ := List.cons.inj ht
        refine ⟨_, ⟨body, rest, hbody, patternFrom_pair.1 hpattern, rfl⟩, ?_⟩
        simp only [List.length_cons]
        omega
  · rintro ⟨m, ⟨body, rest, rfl, hpattern, rfl⟩, rfl⟩
    refine ⟨.char '\\' :: c :: body, rest, rfl, patternFrom_pair.2 hpattern, ?_⟩
    simp only [List.length_cons]
    omega

/-- the scanner ends at a slash just where a pattern does -/
theorem regexLength?_eq_some : regexLength? opened t = some n ↔ EndsAt opened t n := by
  fun_induction regexLength? opened t generalizing n with
  | case1 => simp [not_endsAt_nil]
  | case2 opened c t ih => simp only [endsAt_pair, Option.map_eq_some_iff, ih]
  | case3 opened c t hpair hline =>
    have hc : c ≠ .char '\\' := by
      rintro rfl
      exact absurd hline (by decide)
    have hslash : c ≠ .char '/' := by
      rintro rfl
      exact absurd hline (by decide)
    simp [endsAt_cons hc, hslash, hline]
  | case4 opened t hpair hline ih =>
    simp [endsAt_cons, opensClass, hline, ih]
  | case5 opened t hpair hline hopen ih =>
    simp [endsAt_cons, opensClass, hline, ih]
  | case6 opened c t hpair hline hopen hclose hslash =>
    obtain ⟨rfl, rfl⟩ : c = .char '/' ∧ opened = false := by simpa using hslash
    simp [endsAt_cons]
  | case7 opened c t hpair hline hopen hclose hslash ih =>
    by_cases hc : c = .char '\\'
    · -- a backslash at the end of the text
      cases t with
      | nil =>
        refine iff_of_false (by simp [regexLength?]) ?_
        rintro ⟨body, rest, ht, -⟩
        rw [hc] at ht
        cases body <;> simp at ht
      | cons d t => exact absurd rfl (hpair d t hc)
    · have hopened : c = .char '/' → opened = true := by simpa using hslash
      have hsame : opensClass opened c = opened := by simp [opensClass, hopen, hclose]
      rw [endsAt_cons hc, hsame, Option.map_eq_some_iff]
      simp only [ih]
      constructor
      · exact fun h => .inr ⟨by simpa using hline, hopened, h⟩
      · rintro (⟨hs, ho, -⟩ | ⟨-, -, h⟩)
        · exact absurd (hopened hs) (by simp [ho])
        · exact h

/-- what is taken of a text that begins with a pattern: the pattern, the slash and as many flags as
there are -/
theorem take_pattern (body rest : Text) :
    (body ++ .char '/' :: rest).take (body.length + (1 + runLength isFlag rest)) =
      body ++ .char '/' :: rest.takeWhile isFlag := by
  have hflags : rest.take (runLength isFlag rest) = rest.takeWhile isFlag :=
    (List.prefix_iff_eq_take.1 (List.takeWhile_prefix _)).symm
  rw [List.take_append, List.take_of_length_le (by omega), Nat.add_sub_cancel_left, Nat.add_comm 1,
    List.take_succ_cons, hflags]

theorem regexLength?_of_isPattern (h : IsPattern t) (rest : Text) :
    regexLength? false (t ++ .char '/' :: rest) = some (t.length + (1 + runLength isFlag rest)) :=
  regexLength?_eq_some.2 ⟨t, rest, rfl, patternFrom_false.2 h, rfl⟩

/-- the scanner fails just where no pattern is closed -/
theorem regexLength?_eq_none : regexLength? false t = none ↔ ∀ body rest, t = body ++ .char '/' ::
    rest → ¬ IsPattern body := by
  constructor
  · rintro h body rest rfl hpattern
    rw [regexLength?_of_isPattern hpattern] at h
    cases h
  · intro h
    rw [Option.eq_none_iff_forall_ne_some]
    intro n hn
    obtain ⟨body, rest, ht, hpattern, -⟩ := regexLength?_eq_some.1 hn
    exact h body rest ht (patternFrom_false.1 hpattern)

/-- a pattern is what the scanner takes before a slash at the end of the text -/
theorem isPattern_iff :
    IsPattern t ↔ regexLength? false (t ++ [.char '/']) = some (t.length + 1) := by
  constructor
  · exact fun h => regexLength?_of_isPattern h []
  · intro h
    obtain ⟨body, rest, ht, hpattern, hlength⟩ := regexLength?_eq_some.1 h
    have htotal : t.length + 1 = body.length + (rest.length + 1) := by
      simpa using congrArg List.length ht
    rcases List.eq_nil_or_concat rest with rfl | ⟨init, d, rfl⟩
    · obtain rfl : t = body := List.append_cancel_right ht
      exact patternFrom_false.1 hpattern
    · -- all that comes behind the pattern's slash would be flags, the last slash too
      have hrun : runLength isFlag (init.concat d ++ []) = (init.concat d).length := by
        rw [List.append_nil]
        omega
      have hflags := (runLength_append.1 hrun).1
      rw [List.concat_eq_append, ← List.cons_append, ← List.append_assoc] at ht
      obtain rfl : .char '/' = d := (List.cons.inj (List.append_inj_right' ht rfl)).1
      have hslash := List.all_eq_true.1 hflags (.char '/') (by simp)
      exact absurd hslash (by decide)

instance : DecidablePred IsPattern := fun _ => decidable_of_iff _ isPattern_iff.symm

end Lexical

namespace TokenStream

open Token.Context Lexical

variable {source : Text} {k : Token}

/-- A regular expression is a pattern between slashes, with all the flags that come behind it. -/
theorem exists_pattern (hk : k ∈ (ofText source).tokens) (hkind : k.kind = .regex) : ∃ body flags,
    k.text = .char '/' :: (body ++ .char '/' :: flags) ∧ body ≠ [] ∧ body.head? ≠ some (.char '*') ∧
    IsPattern body ∧
      flags.all isFlag = true ∧ Stops isFlag (source.drop k.stop.offset) := by
  obtain ⟨before, after, hsplit⟩ := List.append_of_mem hk
  obtain ⟨c, t, htext, hread⟩ := reads_of_tokens hsplit
  rw [hkind] at hread
  obtain ⟨rfl, hcomment, hlength⟩ := hread.of_regex
  obtain ⟨body, rest, hr, hpattern, hlength⟩ := regexLength?_eq_some.1 hlength
  have ht : t = body ++ .char '/' :: rest.takeWhile isFlag := by
    rw [← take_pattern, ← hr, hlength, List.take_left]
  refine ⟨body,
    _, by rw [htext, ht], ?_, ?_, patternFrom_false.1 hpattern, List.all_takeWhile, hread.place.2.1⟩
  · rintro rfl
    rw [hr] at hcomment
    exact absurd hcomment (by simp [opensComment])
  · intro hstar
    obtain ⟨tail, rfl⟩ := List.head?_eq_some_iff.1 hstar
    rw [hr] at hcomment
    exact absurd hcomment (by simp [opensComment])

/-- Every regular expression among the tokens is a pattern between slashes, with all the flags
behind it.  Where a slash may begin one, and a pattern with its slash does come, it is the next
token; where none comes, what is wrong is told there. -/
theorem regex_ofText (source : Text) :
    (∀ k ∈ (ofText source).tokens, k.kind = .regex → ∃ body flags,
      k.text = .char '/' :: (body ++ .char '/' :: flags) ∧ body ≠ [] ∧
      body.head? ≠ some (.char '*') ∧ IsPattern body ∧
        flags.all isFlag = true ∧ Stops isFlag (source.drop k.stop.offset)) ∧
    ∀ before rest gap r, (ofText source).tokens = before ++ rest →
      source.drop (Token.reach (interpreterLine source).length before) = gap ++ .char '/' :: r →
      IsGap (.char '/' :: r) gap → opensComment r = false →
      (Token.Context.behind before).slashOpensRegex = true →
      ∃ p : Position, p.Exact source ∧ source.drop p.offset = .char '/' :: r ∧
        (∀ body behind, r = body ++ .char '/' :: behind → IsPattern body →
          ∃ k after, rest = k :: after ∧ k.kind = .regex ∧ k.start = p ∧
            k.text = .char '/' :: (body ++ .char '/' :: behind.takeWhile isFlag)) ∧
        ((∀ body behind, r = body ++ .char '/' :: behind → ¬ IsPattern body) →
          rest = [] ∧ (ofText source).failure = some (.sourceAt p .unterminatedRegex)) := by
  refine ⟨fun k hk hkind => exists_pattern hk hkind, ?_⟩
  intro before rest gap r htokens hdrop hgap hcomment hopens
  obtain ⟨p, hleft, -, hresumes⟩ := exists_resumes htokens hdrop hgap
  refine ⟨p, hresumes.exact, hleft, ?_, ?_⟩
  · rintro body behind rfl hpattern
    have hlength := regexLength?_of_isPattern hpattern behind
    obtain ⟨after, hrest⟩ := hresumes.eq_cons hleft (.regex rfl hcomment hopens hlength)
    exact ⟨_, after, hrest, rfl, rfl, congrArg _ (take_pattern body behind)⟩
  · intro hnone
    exact hresumes.eq_nil hleft (.regex rfl hcomment hopens (regexLength?_eq_none.2 hnone))

/-- a slash in a class and an escaped one, then a class that is not closed on its line -/
def slashes : Text := "r = /[/\\]]\\//gi, /[a/\nb"

theorem regex_ofText_slashes :
    (∃ k ∈ (ofText slashes).tokens, k.kind = .regex ∧ ∃ body flags,
      k.text = .char '/' :: (body ++ .char '/' :: flags) ∧
      IsPattern body ∧ flags.all isFlag = true ∧ Stops isFlag (slashes.drop k.stop.offset)) ∧
    (∃ k after, (ofText slashes).tokens.drop 2 = k :: after ∧ k.start.Exact slashes ∧
      k.text = Text.ofString "/[/\\]]\\//gi") ∧
    ∃ p : Position, p.Exact slashes ∧ slashes.drop p.offset = Text.ofString "/[a/\nb" ∧
      (ofText slashes).failure = some (.sourceAt p .unterminatedRegex) := by
  have hsome : (ofText slashes).tokens.any (·.kind = .regex) = true := by decide +kernel
  obtain ⟨k, hk, hkind⟩ := List.any_eq_true.1 hsome
  have hkind : k.kind = .regex := of_decide_eq_true hkind
  obtain ⟨hmember, hnext⟩ := regex_ofText slashes
  obtain ⟨body, flags, htext, -, -, hbody, hflags, hstops⟩ := hmember k hk hkind
  have hblank : ∀ r, IsGap (.char '/' :: r) [.char ' '] := fun r =>
    (IsFiller.blanks (by decide) (by decide) (stops_cons.2 (by decide))).isGap
  obtain ⟨p, hexact, -, hpattern, -⟩ :=
    hnext ((ofText slashes).tokens.take 2) ((ofText slashes).tokens.drop 2) [.char ' ']
      (slashes.drop 5) (List.take_append_drop 2 _).symm (by decide +kernel) (hblank _)
        (by decide +kernel) (by decide +kernel)
  obtain ⟨k', after, hrest, -, rfl, htext'⟩ :=
    hpattern (Text.ofString "[/\\]]\\/") (slashes.drop 13) (by decide +kernel)
      (by decide +kernel)
  obtain ⟨p, hexact', hdrop, -, hnone⟩ :=
    hnext (ofText slashes).tokens [] [.char ' '] (slashes.drop 18)
    (List.append_nil _).symm (by decide +kernel) (hblank _) (by decide +kernel) (by decide +kernel)
  obtain ⟨-, hfailure⟩ := hnone (regexLength?_eq_none.1 (by decide +kernel))
  exact ⟨⟨k, hk, hkind, body, flags, htext, hbody, hflags, hstops⟩,
    ⟨k', after, hrest, hexact, htext'⟩, p, hexact', hdrop, hfailure⟩

/-- A backslash escapes a line terminator as well: a regular expression goes on over the end of its
line. -/
theorem regex_ofText_broken :
    (∃ k ∈ (ofText (Text.ofString "/\\\n/")).tokens, k.kind = .regex ∧
      k.text = Text.ofString "/\\\n/" ∧ k.text.any (·.isLineTerminator) = true) ∧
    (ofText (Text.ofString "/\\\n/")).failure = none := by
  have hsome : (ofText (Text.ofString "/\\\n/")).tokens.any
      (fun k => k.kind = .regex && k.text = Text.ofString "/\\\n/") = true := by decide +kernel
  obtain ⟨k, hk, hface⟩ := List.any_eq_true.1 hsome
  simp only [Bool.and_eq_true, decide_eq_true_eq] at hface
  exact ⟨⟨k, hk, hface.1, hface.2, by rw [hface.2]; decide⟩, by decide +kernel⟩

end TokenStream

end Relocation
