import Relocation.Proofs.Exchange

/-!
# What a name decides

Two decisions depend on which name was read: whether a slash right behind it begins a regular
expression, and whether one does behind the parentheses that follow it.  The second is made when
they open and acts when they close, with any tokens in between.  `Token.Context.Legal.beside`: where
contexts differ in nothing but the answers to these two questions, the same words may stand in both
unless such a slash comes.  One token decides nothing but its own slash (`admits_iff`,
`legal_of_slash`); an open parenthesis is followed to where it closes (`legal_of_open`).
-/

namespace Relocation

namespace Token

/-- a division sign, or a regular expression -/
def IsSlash (face : Kind × Text) : Prop := face.2.head? = some (.char '/')

instance : DecidablePred IsSlash :=
  fun face => inferInstanceAs (Decidable (face.2.head? = some (.char '/')))

/-- what stands right behind the parenthesis that closes the innermost but `depth` of those that are
open -/
def behindClosing : (depth : Nat) → List (Kind × Text) → Option (Kind × Text)
  | _, [] => none
  | depth, (.openParen, _) :: r => behindClosing (depth + 1) r
  | 0, (.closeParen, _) :: r => r.head?
  | depth + 1, (.closeParen, _) :: r => behindClosing depth r
  | depth, _ :: r => behindClosing depth r

/-- what stands right behind the parentheses at the front, if there are some -/
def behindParens : List (Kind × Text) → Option (Kind × Text)
  | (.openParen, _) :: r => behindClosing 0 r
  | _ => none

/-- It makes no difference which of the two names is read before the tokens: no slash comes right
behind the name, or both are operators or none is; and no slash comes right behind the parentheses
that follow the name, or both are heads of statements or none is. -/
def Indifferent (old new : Text) (behind : List (Kind × Text)) : Prop :=
  (operatorWords.contains old = operatorWords.contains new ∨ ∀ f ∈ behind.head?, ¬ IsSlash f) ∧
    (headWords.contains old = headWords.contains new ∨ ∀ f ∈ behindParens behind, ¬ IsSlash f)

instance (old new : Text) (behind : List (Kind × Text)) : Decidable (Indifferent old new behind) :=
  inferInstanceAs (Decidable (_ ∧ _))

end Token

namespace Token.Context

open Lexical

variable {ctx ctx' : Context} {kind : Kind} {text : Text} {ws : List Word} {stack rest : List Bool}
  {head head' : Bool}

/-! ## one token -/

theorem isSlash_of_regex (h : Readable .regex text) : IsSlash (.regex, text) := by
  obtain ⟨ctx, c, t, rest, rfl, h⟩ := h
  exact congrArg some h.of_regex.1

theorem kind_of_isSlash (h : Readable kind text) (hs : IsSlash (kind, text)) : kind = .regex ∨
    kind = .punct := by
  obtain ⟨ctx, c, t, rest, rfl, h⟩ := h
  obtain rfl : c = .char '/' := Option.some.inj hs
  generalize hn : t.length = n at h
  generalize hf : Front.token kind = f at h
  cases h with
  | regex => exact .inl (Front.token.inj hf)
  | slash => exact .inr (Front.token.inj hf)
  | punct => exact .inr (Front.token.inj hf)
  | bracket hk => exact absurd hk (by simp [bracketKind?])
  | number hc ho => exact absurd ho (by simp [opensNumber]; decide)
  | word hc hd hw => exact absurd hw (by decide)
  | string hc => rcases hc with hc | hc <;> cases hc
  | closeBrace hc => cases hc
  | resume hc => cases hc
  | template hc => cases hc
  | hidden hc => cases hc
  | _ => cases hf

/-- of what contexts can differ in, only what a slash means there counts for a token, and only for
one that is a slash -/
theorem admits_iff (h : Readable kind text) (hbraces : ctx.braces = ctx'.braces)
    (hmember : kind = .module → ctx.namesMember = ctx'.namesMember) (ha : ctx.Admits kind text) :
    ctx'.Admits kind text ↔ ctx.slashOpensRegex = ctx'.slashOpensRegex ∨
    ¬ IsSlash (kind, text) := by
  by_cases hs : IsSlash (kind, text)
  · rcases kind_of_isSlash h hs with rfl | rfl
    · have ha : ctx.slashOpensRegex = true := ha
      simp only [Admits, ha, hs, not_true_eq_false, or_false, eq_comm]
    · have ha : ctx.slashOpensRegex = false := ha hs
      have hs' : text.head? = some (.char '/') := hs
      simp only [Admits, ha, hs, hs', not_true_eq_false, or_false, true_implies, eq_comm]
  · simp only [hs, not_false_eq_true, or_true, iff_true]
    cases kind with
    | regex => exact absurd (isSlash_of_regex h) hs
    | punct => exact fun hhead => absurd hhead hs
    | closeBrace | templateMiddle | templateTail => simpa only [Admits, ← hbraces] using ha
    | module => simpa only [Admits, ← hmember rfl] using ha
    | _ => trivial

theorem parens_after_openParen : (ctx.after .openParen text).parens = ctx.namesHead :: ctx.parens :=
  rfl

theorem parens_after_closeParen : (ctx.after .closeParen text).parens = ctx.parens.tail := rfl

theorem parens_after (hopen : kind ≠ .openParen) (hclose : kind ≠ .closeParen) :
    (ctx.after kind text).parens = ctx.parens := by
  cases kind <;> first | rfl | contradiction

theorem behindClosing_cons {depth : Nat} {r : List (Kind × Text)} (hopen : kind ≠ .openParen)
    (hclose : kind ≠ .closeParen) :
    behindClosing depth ((kind, text) :: r) = behindClosing depth r := by
  cases depth <;> cases kind <;> first | rfl | contradiction

/-- behind one more token, contexts read the same if it opens no parenthesis, or follows the head of
a statement in both or in none -/
theorem like_after (hbraces : ctx.braces = ctx'.braces) (hparens : ctx.parens = ctx'.parens)
    (hhead : kind = .openParen → ctx.namesHead = ctx'.namesHead) :
    Like (ctx.after kind text) (ctx'.after kind text) := by
  refine ⟨?_, ?_, ?_⟩
  · cases kind <;> simp [Context.after, hbraces]
  · cases kind with
    | openParen =>
      show ctx.namesHead :: ctx.parens = ctx'.namesHead :: ctx'.parens
      rw [hhead rfl, hparens]
    | _ => simp [Context.after, hparens]
  · by_cases hk : kind = .closeParen
    · subst hk
      rw [left_after_closeParen, left_after_closeParen, hparens]
    · rw [left_after hk, left_after hk]

/-! ## the tokens behind -/

/-- whether words may stand somewhere is a matter of their kinds and texts -/
theorem Legal.of_face {ws' : List Word} (hl : ctx.Legal ws)
    (h : ws.map Word.face = ws'.map Word.face) : ctx.Legal ws' := by
  induction ws generalizing ctx ws' with
  | nil =>
    obtain rfl := List.map_eq_nil_iff.1 h.symm
    trivial
  | cons w ws ih =>
    obtain ⟨w', ws', rfl, hw, hws⟩ := List.map_eq_cons_iff.1 h.symm
    obtain ⟨hkind, htext⟩ := Prod.mk.inj hw
    have hkind : w'.kind = w.kind := hkind
    have htext : w'.text = w.text := htext
    rw [Legal, hkind, htext]
    exact ⟨hl.1, hl.2.1, ih hl.2.2 hws.symm⟩

/-- words may stand in contexts that read the same -/
theorem Like.legal (h : Like ctx ctx') (hl : ctx.Legal ws) : ctx'.Legal ws := by
  induction ws generalizing ctx ctx' with
  | nil => trivial
  | cons w ws ih => exact ⟨hl.1, h.admits hl.2.1, ih (h.after w.kind w.text) hl.2.2⟩

/-- contexts differ in what a slash means -/
theorem legal_of_slash (hbraces : ctx.braces = ctx'.braces) (hparens : ctx.parens = ctx'.parens)
    (hmember : ctx.namesMember = ctx'.namesMember) (hhead : ctx.namesHead = ctx'.namesHead)
    (hl : ctx.Legal ws) : ctx'.Legal ws ↔ ctx.slashOpensRegex = ctx'.slashOpensRegex ∨
    ∀ f ∈ (ws.map Word.face).head?, ¬ IsSlash f := by
  cases ws with
  | nil => simp [Legal]
  | cons w ws =>
    obtain ⟨hw, ha, hl⟩ := hl
    have hlike : Like (ctx.after w.kind w.text) (ctx'.after w.kind w.text) :=
      like_after hbraces hparens fun _ => hhead
    have hrest := hlike.legal hl
    simp only [Legal, hw, hrest, true_and, and_true, admits_iff hw hbraces (fun _ => hmember) ha]
    simp [Word.face]

/-- contexts differ in whether one of the open parentheses follows the head of a statement -/
theorem legal_of_open (hbraces : ctx.braces = ctx'.braces) (hleft : ctx.left = ctx'.left)
    (hparens : ctx.parens = stack ++ head :: rest) (hparens' : ctx'.parens = stack ++ head' :: rest)
    (hl : ctx.Legal ws) :
    ctx'.Legal ws ↔ head = head' ∨ ∀ f ∈ behindClosing stack.length (ws.map Word.face),
    ¬ IsSlash f := by
  induction ws generalizing ctx ctx' stack with
  | nil => simp [Legal, behindClosing]
  | cons w ws ih =>
    obtain ⟨kind, text, newline⟩ := w
    obtain ⟨hw, ha, hl⟩ := hl
    have hregex : ctx.slashOpensRegex = ctx'.slashOpensRegex := congrArg Left.regex hleft
    have hmember : ctx.namesMember = ctx'.namesMember := congrArg Left.member hleft
    have hhead : ctx.namesHead = ctx'.namesHead := congrArg Left.head hleft
    have ha' : ctx'.Admits kind text :=
      (admits_iff hw hbraces (fun _ => hmember) ha).2 (.inl hregex)
    have hbraces' : (ctx.after kind text).braces = (ctx'.after kind text).braces := by
      cases kind <;> simp [Context.after, hbraces]
    simp only [Legal, hw, ha', true_and, List.map_cons, Word.face]
    by_cases hopen : kind = .openParen
    · subst hopen
      have hstack :
          (ctx.after .openParen text).parens = (ctx.namesHead :: stack) ++ head :: rest := by
        rw [parens_after_openParen, hparens]
        rfl
      exact ih hbraces' rfl hstack (by rw [parens_after_openParen, hparens', hhead]; rfl) hl
    by_cases hclose : kind = .closeParen
    · subst hclose
      cases stack with
      | nil =>
        -- the parenthesis that the contexts differ in: what comes behind it sees the difference
        have hrest :=
          legal_of_slash hbraces' (by simp [parens_after_closeParen, hparens, hparens']) rfl rfl hl
        have hslash : (ctx.after .closeParen text).slashOpensRegex = head := by
          show ctx.parens.head?.getD false = head
          rw [hparens]
          rfl
        have hslash' : (ctx'.after .closeParen text).slashOpensRegex = head' := by
          show ctx'.parens.head?.getD false = head'
          rw [hparens']
          rfl
        rw [hslash, hslash'] at hrest
        exact hrest
      | cons other stack =>
        have hstack : (ctx.after .closeParen text).parens = stack ++ head :: rest := by
          rw [parens_after_closeParen, hparens]
          rfl
        refine ih hbraces' ?_ hstack ?_ hl
        · rw [left_after_closeParen, left_after_closeParen, hparens, hparens']
          rfl
        · rw [parens_after_closeParen, hparens']
          rfl
    · rw [behindClosing_cons hopen hclose]
      exact ih hbraces' (by rw [left_after hclose, left_after hclose])
        (by rw [parens_after hopen hclose, hparens])
          (by rw [parens_after hopen hclose, hparens']) hl

/-- contexts differ in what a slash means, and in whether a parenthesis follows the head of a
statement -/
theorem Legal.beside (hl : ctx.Legal ws) (hbraces : ctx.braces = ctx'.braces)
    (hparens : ctx.parens = ctx'.parens) (hmember : ctx.namesMember = ctx'.namesMember) :
    ctx'.Legal ws ↔
      (ctx.slashOpensRegex = ctx'.slashOpensRegex ∨ ∀ f ∈ (ws.map Word.face).head?, ¬ IsSlash f) ∧
      (ctx.namesHead = ctx'.namesHead ∨ ∀ f ∈ behindParens (ws.map Word.face), ¬ IsSlash f) := by
  cases ws with
  | nil => simp [Legal, behindParens]
  | cons w ws =>
    obtain ⟨kind, text, newline⟩ := w
    obtain ⟨hw, ha, hl⟩ := hl
    have hfirst : ctx'.Admits kind text ↔ _ := admits_iff hw hbraces (fun _ => hmember) ha
    simp only [Legal, hw, true_and, hfirst, List.map_cons, Word.face, List.head?_cons,
      Option.mem_some_iff, forall_eq']
    refine and_congr_right fun _ => ?_
    by_cases hopen : kind = .openParen
    · subst hopen
      have hbraces' : (ctx.after .openParen text).braces = (ctx'.after .openParen text).braces :=
        hbraces
      have hstack : (ctx.after .openParen text).parens = [] ++ ctx.namesHead :: ctx.parens :=
        parens_after_openParen
      exact legal_of_open hbraces' rfl hstack (by rw [parens_after_openParen, hparens]; rfl) hl
    · have hnone : behindParens ((kind, text) :: ws.map Word.face) = none := by
        cases kind <;> first | rfl | contradiction
      have hlike : Like (ctx.after kind text) (ctx'.after kind text) :=
        like_after hbraces hparens fun h => absurd h hopen
      simp [hnone, hlike.legal hl]

end Token.Context

end Relocation
