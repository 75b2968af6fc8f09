import Relocation.Proofs.Keywords
import Relocation.Proofs.Numeral
import Relocation.Proofs.Patching
import Relocation.Proofs.Positions

/-!
# Other names for members

`TokenStream.rename_member`: another name in the place of one behind a member's dot is read as a
name, and the tokens around it as before, if and only if the names are `Indifferent` for what comes
behind.  They are not where one of them is a keyword, the other is none, and a slash follows, or
parentheses and then a slash: the lexer asks the word and not the dot before it.

* What comes up to the name is cut as before (`Lexeme.cuts_point`), since names and gaps begin with
  characters that no punctuator and no number goes on with (`IsForeign`), and the dot hides all else
  that comes behind it (`Pointed`).
* What comes behind the name is cut as before if its words may stand behind the new name
  (`Lexeme.cuts_name`), and only then (`Lexeme.legal_behind_member`).  When they may is
  `Token.Context.Legal.beside`.
-/

namespace Relocation

namespace Lexical

variable {c : CodePoint} {r : Text}

/-- a character that is part of no punctuator and has no digit value -/
structure IsForeign (c : CodePoint) : Prop where
  punctuators : ∀ q ∈ punctuators, c ∉ q
  digit : c.isDigitValued = false

theorem isForeign_of {p : CodePoint → Bool} (hp : ∀ q ∈ Lexical.punctuators, ∀ c ∈ q, p c = false)
    (hc : p c = true) (hd : c.isDigitValued = false) : IsForeign c := by
  refine ⟨fun q hq hmem => ?_, hd⟩
  rw [hp q hq c hmem] at hc
  cases hc

theorem isForeign_of_isWhitespace (h : isWhitespace c = true) : IsForeign c :=
  isForeign_of (by decide) h (isDigitValued_of_isWhitespace h)

theorem isForeign_of_isLineTerminator (h : c.isLineTerminator = true) : IsForeign c := by
  refine isForeign_of (by decide) h ?_
  simp only [CodePoint.isLineTerminator, Bool.or_eq_true, decide_eq_true_eq] at h
  rcases h with ((rfl | rfl) | rfl) | rfl <;> decide

theorem isForeign_slash : IsForeign (.char '/') := ⟨by decide, by decide⟩

end Lexical

/-! ## behind a member's dot -/

namespace Token.Context

open Lexical

variable {ctx ctx' : Context} {c : CodePoint} {t text rest rest' : Text} {kind : Kind}
  {p : CodePoint → Bool}

/-- gaps begin with foreign characters -/
theorem Reads.isForeign_of_gap {n : Nat} (h : Reads ctx c t .gap n) : IsForeign c := by
  generalize hf : Front.gap = f at h
  cases h with
  | blanks hc => exact isForeign_of_isWhitespace hc
  | terminator hc => exact isForeign_of_isLineTerminator hc
  | line hc => exact hc ▸ isForeign_slash
  | comment hc => exact hc ▸ isForeign_slash
  | _ => cases hf

/-- a name begins with a foreign character, and not with one that a gap could go on with -/
theorem exists_of_readable_name (h : Readable .name text) : ∃ c t, text = c :: t ∧ IsForeign c ∧
    isWhitespace c = false ∧ c.isLineTerminator = false := by
  obtain ⟨ctx, c, t, rest, rfl, h⟩ := h
  refine ⟨c, t, rfl, ?_⟩
  generalize hn : t.length = n at h
  generalize hf : Front.token .name = f at h
  cases h with
  | word hc hd hs =>
    simp only [isPlain, Bool.and_eq_true, Bool.not_eq_true'] at hc
    exact ⟨isForeign_of (by decide) hs hd, hc.1.1, hc.1.2⟩
  | hidden hc =>
    subst hc
    exact ⟨⟨by decide, by decide⟩, by decide, by decide⟩
  | bracket hk => cases hf; unfold bracketKind? at hk; grind
  | resume => split at hf <;> cases hf
  | template => split at hf <;> cases hf
  | _ => cases hf

/-- the texts are the same up to a point, behind which something foreign comes in both -/
def Pointed (rest rest' : Text) : Prop :=
  ∃ front c a d b, rest = front ++ .char '.' :: c :: a ∧ rest' = front ++ .char '.' :: d :: b ∧
    IsForeign c ∧ IsForeign d

theorem Pointed.append (h : Pointed rest rest') (t : Text) : Pointed (t ++ rest) (t ++ rest') := by
  obtain ⟨front, c, a, d, b, rfl, rfl, hc, hd⟩ := h
  exact ⟨t ++ front, c, a, d, b, by simp, by simp, hc, hd⟩

theorem Pointed.head? (h : Pointed rest rest') : rest.head? = rest'.head? := by
  obtain ⟨front, c, a, d, b, rfl, rfl, -, -⟩ := h
  cases front <;> rfl

theorem Pointed.stops (h : Pointed rest rest') (hs : Stops p rest) : Stops p rest' := by
  rwa [Stops, ← h.head?]

/-- no token but the point looks behind it -/
theorem apart_of_pointed (h : Pointed rest rest') (hne : text ≠ []) (ha : Apart kind text rest) :
    Apart kind text rest' := by
  have hhead := h.head?
  unfold Apart at ha ⊢
  split at ha
  · exact h.stops ha
  · exact h.stops ha
  · obtain ⟨front, c, a, d, b, rfl, rfl, -, -⟩ := h
    have hle : numberLength ((text ++ front) ++ .char '.' :: c :: a) ≤ (text ++ front).length := by
      rw [List.append_assoc, ha, List.length_append]
      omega
    have hfront : text ++ front ≠ [] := by simp [hne]
    rw [← List.append_assoc] at ha ⊢
    rw [numberLength_append_point hfront hle, ← ha, numberLength_append_point hfront hle]
  · exact h.stops ha
  · split at ha
    · rw [if_pos ‹_›]
      rwa [opensComment, ← hhead]
    · rw [if_neg ‹_›]
      refine ⟨?_, by rw [← hhead]; exact ha.2⟩
      obtain ⟨front, c, a, d, b, rfl, rfl, hc, hd⟩ := h
      have hsplit : ∀ (c : CodePoint) (a : Text), text ++ (front ++ .char '.' :: c :: a) =
          (text ++ (front ++ [.char '.'])) ++ c :: a := by simp
      have ha := ha.1
      rw [hsplit, punctuatorLength?_append_of_foreign hc.punctuators hc.digit] at ha
      rw [hsplit, punctuatorLength?_append_of_foreign hd.punctuators hd.digit, ha]
  · trivial

theorem gap_of_pointed (h : Pointed rest rest') (hr : Reads ctx c (t ++ rest) .gap t.length) :
    Reads ctx' c (t ++ rest') .gap t.length :=
  hr.gap_move h.stops (fun hfeed => .inl (by rw [h.head?, hfeed])) h.stops

/-- nothing foreign goes on with a member's dot -/
theorem apart_point (htext : text = Text.ofString "." ∨ text = Text.ofString "?.")
    (hc : IsForeign c) (r : Text) : Apart .punct text (c :: r) := by
  have hmeasure : ∀ text, text = Text.ofString "." ∨ text = Text.ofString "?." →
      text.head? ≠ some (.char '/') ∧ punctuatorLength? text = some text.length := by
    rintro _ (rfl | rfl) <;> decide
  obtain ⟨hslash, hlength⟩ := hmeasure text htext
  rw [Apart, if_neg hslash, punctuatorLength?_append_of_foreign hc.punctuators hc.digit]
  exact ⟨hlength, fun _ => by simpa using hc.digit⟩

end Token.Context

namespace Lexeme

open Token.Context Lexical

variable {ctx ctx' : Token.Context} {gs lead tail ls : List Lexeme} {rest rest' : Text}
  {c d : CodePoint} {r r' : Text}

/-! ## cutting anew -/

theorem head_of_cuts (h : Cuts ctx ls rest) (hne : ls ≠ []) : ∃ c t, textOf ls = c :: t := by
  cases ls with
  | nil => exact absurd rfl hne
  | cons l ls =>
    obtain ⟨⟨c, t, ht, -⟩, -⟩ := h
    exact ⟨c, t ++ textOf ls, by rw [textOf_cons, ht]; rfl⟩

/-- gaps before one name are gaps before another -/
theorem cuts_gaps_before (hgap : ∀ g ∈ gs, g.front = .gap) (h : Cuts ctx gs (c :: r))
    (hblank : isWhitespace d = false) (hc : c.isLineTerminator = false)
    (hd : d.isLineTerminator = false) : Cuts ctx gs (d :: r') := by
  induction gs generalizing ctx with
  | nil => trivial
  | cons g gs ih =>
    obtain ⟨hg, hgs⟩ := h
    have hcuts := ih (fun g' hg' => hgap g' (by simp [hg'])) hgs
    obtain ⟨front, text⟩ := g
    obtain rfl : front = .gap := hgap ⟨front, text⟩ (by simp)
    obtain ⟨e, t, rfl, hread⟩ := hg
    refine ⟨⟨e, t, rfl, ?_⟩, hcuts⟩
    have hread : ctx.Reads e (t ++ (textOf gs ++ c :: r)) .gap t.length := hread
    cases gs with
    | nil =>
      refine hread.gap_move (fun _ => by simpa using hblank) (fun hfeed => ?_) fun hs => ?_
      · obtain rfl : d = .char '\n' := by simpa using hfeed
        cases hd
      · simp [hc] at hs
    | cons g' gs =>
      obtain ⟨e', t', ht'⟩ := head_of_cuts hgs (List.cons_ne_nil g' gs)
      simp only [ht'] at hread ⊢
      exact hread.gap_move (fun hs => by simpa using hs) (fun hfeed => .inl (by simpa using hfeed))
        fun hs => by simpa using hs

/-- a name, or the gaps before it, begin with a foreign character -/
theorem exists_foreign_of_name {name : Text} (hgap : ∀ g ∈ gs, g.front = .gap)
    (h : Cuts ctx (gs ++ ⟨.token .name, name⟩ :: tail) rest) :
    ∃ e q, textOf (gs ++ ⟨.token .name, name⟩ :: tail) = e :: q ∧ IsForeign e := by
  cases gs with
  | nil =>
    obtain ⟨⟨c, t, ht, hread⟩, -⟩ := h
    obtain ⟨e, q, rfl, he, -⟩ := exists_of_readable_name ⟨ctx, c, t, _, ht, hread⟩
    exact ⟨e, q ++ textOf tail, by simp, he⟩
  | cons g gs =>
    obtain ⟨⟨e, t, ht, hread⟩, -⟩ := h
    rw [hgap g (by simp)] at hread
    exact ⟨e, t ++ textOf (gs ++ ⟨.token .name, name⟩ :: tail),
      by rw [List.cons_append, textOf_cons, ht]; rfl, hread.isForeign_of_gap⟩

/-- what comes before a point is cut alike with something else behind the point -/
theorem cuts_before_point (hrest : Pointed rest rest')
    (hlead : leadsToBrace false rest = leadsToBrace false rest')
    (h : Cuts ctx ls rest) : Cuts ctx ls rest' := by
  have hunseen : Unseen rest rest' :=
    ⟨hlead, fun r => gap_of_pointed (hrest.append r), fun r =>
      apart_of_pointed (hrest.append r) (List.cons_ne_nil _ _)⟩
  have hlegal : ctx.Legal (words none ls) := legal_of_cuts h
  exact hunseen.cuts h hlegal rfl

/-- what may stand somewhere may do so part by part -/
theorem legal_words_append {broken : Option Bool} {a b : List Lexeme}
    (h : ctx.Legal (words broken (a ++ b))) : ctx.Legal (words broken a) ∧
    (contextAfter ctx a).Legal (words none b) := by
  induction a generalizing ctx broken with
  | nil =>
    exact ⟨trivial,
      h.of_face (by rw [List.nil_append, map_face_words _ .start, map_face_words _ .start])⟩
  | cons l a ih =>
    rw [List.cons_append, words] at h
    rw [contextAfter, context, words]
    cases hl : l.front with
    | gap =>
      rw [hl] at h
      exact ih h
    | token kind =>
      rw [hl] at h
      obtain ⟨hread, hadmits, hlegal⟩ := h
      exact ⟨⟨hread, hadmits, (ih hlegal).1⟩, (ih hlegal).2⟩

variable {point old new : Text}

/-- gaps and a name behind a member's dot are cut alike with another name, if what comes behind it
may stand there -/
theorem cuts_name (hgap : ∀ g ∈ gs, g.front = .gap)
    (h : Cuts ctx (gs ++ ⟨.token .name, old⟩ :: tail) [])
    (hmember : ctx.namesMember = true) (hnew : Token.Readable .name new)
    (hl : (ctx.after .name new).Legal (words none tail)) :
    Cuts ctx (gs ++ ⟨.token .name, new⟩ :: tail) [] := by
  obtain ⟨hgs, ⟨c, t, ht, hread⟩, htail⟩ := cuts_append.1 h
  rw [contextAfter_gaps hgap] at hread htail
  obtain rfl : old = c :: t := ht
  have hold : Token.Readable .name (c :: t) := ⟨ctx, c, t, _, rfl, hread⟩
  obtain ⟨c', t', hcons, -, -, hbreak⟩ := exists_of_readable_name hold
  obtain ⟨rfl, rfl⟩ := List.cons.inj hcons
  obtain ⟨d, u, rfl, -, hblank, hbreak'⟩ := exists_of_readable_name hnew
  have hname : Stands ⟨.token .name, d :: u⟩ ctx (textOf tail ++ []) :=
    stands_of_readable (w := ⟨.name, d :: u, false⟩) hnew trivial hread.place.2.1
      ⟨(by cases ·), fun _ _ _ => hmember⟩
  have hgs : Cuts ctx gs (c :: (t ++ textOf tail)) := by simpa using hgs
  have hgs' : Cuts ctx gs (d :: (u ++ textOf tail)) :=
    cuts_gaps_before hgap hgs hblank hbreak hbreak'
  refine cuts_append.2 ⟨by simpa using hgs', ?_⟩
  rw [contextAfter_gaps hgap]
  exact ⟨hname, (Unseen.refl []).cuts htail hl rfl⟩

/-- what comes up to a member's dot is cut alike before one foreign character and another -/
theorem cuts_point (hpoint : point = Text.ofString "." ∨ point = Text.ofString "?.")
    (hc : IsForeign c) (hd : IsForeign d)
    (h : Cuts ctx (lead ++ [⟨.token .punct, point⟩]) (c :: r)) :
    Cuts ctx (lead ++ [⟨.token .punct, point⟩]) (d :: r') := by
  obtain ⟨hlead, ⟨a, b, hab, hread⟩, -⟩ := cuts_append.1 h
  have hpointed : Pointed (point ++ c :: r) (point ++ d :: r') := by
    rcases hpoint with rfl | rfl
    · exact ⟨[], c, r, d, r', rfl, rfl, hc, hd⟩
    · exact ⟨[.char '?'], c, r, d, r', rfl, rfl, hc, hd⟩
  have hstops : ∀ r, leadsToBrace false (point ++ r) = false := by
    intro r
    rcases hpoint with rfl | rfl <;> exact leadsToBrace_stops (by decide)
  refine cuts_append.2 ⟨?_, ⟨a, b, hab, ?_⟩, trivial⟩
  · rw [textOf_cons, textOf_nil, List.append_nil] at hlead ⊢
    exact cuts_before_point hpointed (by rw [hstops, hstops]) hlead
  · obtain rfl : point = a :: b := hab
    exact Token.Context.Reads.move hread (Token.Context.Reads.place hread).1
      (apart_point hpoint hd r')
        ⟨(by cases ·), (by cases ·)⟩

/-- the lexemes around a name behind a member's dot -/
def member (lead gs tail : List Lexeme) (point name : Text) : List Lexeme :=
  lead ++ ⟨.token .punct, point⟩ :: (gs ++ ⟨.token .name, name⟩ :: tail)

theorem member_eq (lead gs tail : List Lexeme) (point name : Text) :
    member lead gs tail point name = (lead ++ [⟨.token .punct, point⟩]) ++
      (gs ++ ⟨.token .name, name⟩ :: tail) := by
  simp [member]

theorem stops_member {p : CodePoint → Bool} (hpoint : point ≠ [])
    (h : Stops p (textOf (member lead gs tail point old))) :
    Stops p (textOf (member lead gs tail point new)) := by
  have hhead :
      (textOf (member lead gs tail point new)).head? =
        (textOf (member lead gs tail point old)).head? := by
    obtain ⟨c, t, rfl⟩ := List.exists_cons_of_ne_nil hpoint
    cases hlead : textOf lead <;> simp [member, hlead]
  rwa [Stops, hhead]

theorem contextAfter_point (ctx : Token.Context) (lead : List Lexeme) (point : Text) :
    contextAfter ctx (lead ++ [⟨.token .punct, point⟩]) =
      (contextAfter ctx lead).after .punct point := by
  induction lead generalizing ctx with
  | nil => rfl
  | cons l lead ih => exact ih (l.context ctx)

/-- A name behind a member's dot can be exchanged if what comes behind it may stand behind the new
one. -/
theorem cuts_member (hpoint : point = Text.ofString "." ∨ point = Text.ofString "?.")
    (hgap : ∀ g ∈ gs, g.front = .gap) (h : Cuts ctx (member lead gs tail point old) [])
    (hnew : Token.Readable .name new)
    (hl : (((contextAfter ctx lead).after .punct point).after .name new).Legal (words none tail)) :
    Cuts ctx (member lead gs tail point new) [] := by
  have hmember : ((contextAfter ctx lead).after .punct point).namesMember = true := by
    rw [Word.namesMember_after _ ⟨.punct, point, false⟩]
    rcases hpoint with rfl | rfl <;> rfl
  rw [member_eq] at h ⊢
  obtain ⟨hdot, hold⟩ := cuts_append.1 h
  rw [contextAfter_point] at hold
  have hname := cuts_name hgap hold hmember hnew hl
  obtain ⟨c, r, hcr, hc⟩ := exists_foreign_of_name hgap hold
  obtain ⟨d, r', hdr, hd⟩ := exists_foreign_of_name hgap hname
  refine cuts_append.2 ⟨?_, by rwa [contextAfter_point]⟩
  rw [List.append_nil] at hdot ⊢
  rw [hcr] at hdot
  rw [hdr]
  exact cuts_point hpoint hc hd hdot

/-- what comes behind a name behind a member's dot may stand there -/
theorem legal_behind_member (hgap : ∀ g ∈ gs, g.front = .gap)
    (h : ctx.Legal (words none (member lead gs tail point new))) :
    (((contextAfter ctx lead).after .punct point).after .name new).Legal (words none tail) := by
  have hdot := (legal_words_append h).2
  have hname := hdot.2.2
  rw [words_append_gaps hgap] at hname
  exact hname.2.2.of_face (by rw [map_face_words _ .start, map_face_words _ .start])

/-! ## splitting the lexemes -/

variable {p : Position}

/-- tokens are found part by part -/
theorem tokens_append (a b : List Lexeme) :
    tokens p (a ++ b) = tokens p a ++ tokens (stop p a) b := by
  induction a generalizing p with
  | nil => rfl
  | cons l a ih =>
    rw [List.cons_append, tokens, tokens, stop]
    cases l.front with
    | gap => exact ih
    | token kind => exact congrArg _ ih

theorem map_face_tokens (p q : Position) (ls : List Lexeme) :
    (tokens p ls).map Token.face = (tokens q ls).map Token.face := by
  rw [← map_face_words none, ← map_face_words none]

theorem map_face_member (hgap : ∀ g ∈ gs, g.front = .gap) (p q q' : Position) :
    (tokens p (member lead gs tail point new)).map Token.face =
      (tokens q lead).map Token.face ++ (.punct, point) :: (.name, new) ::
      (tokens q' tail).map Token.face := by
  simp only [member, tokens_append, List.map_append, tokens, tokens_gaps hgap, List.map_cons,
    map_face_tokens q p, map_face_tokens q' p]
  rw [map_face_tokens _ p tail]
  rfl

theorem gap_of_tokens_eq_nil (h : tokens p ls = []) : ∀ l ∈ ls, l.front = .gap := by
  induction ls generalizing p with
  | nil => intro l hl; cases hl
  | cons l ls ih =>
    rw [tokens] at h
    cases hl : l.front with
    | gap =>
      rw [hl] at h
      exact List.forall_mem_cons.2 ⟨hl, ih h⟩
    | token kind =>
      rw [hl] at h
      cases h

/-- the lexemes before a token, and those behind it -/
theorem exists_of_tokens_eq_append {before after : List Token} {k : Token}
    (h : tokens p ls = before ++ k :: after) :
    ∃ front back, ls = front ++ ⟨.token k.kind, k.text⟩ :: back ∧ tokens p front = before ∧
    k.start = stop p front ∧
      k.stop = k.start.advance k.text ∧ tokens k.stop back = after := by
  induction ls generalizing p before with
  | nil => cases before <;> cases h
  | cons l ls ih =>
    obtain ⟨front, text⟩ := l
    cases front with
    | gap =>
      obtain ⟨front, back, rfl, hfront, hrest⟩ := ih h
      exact ⟨⟨.gap, text⟩ :: front, back, rfl, hfront, hrest⟩
    | token kind =>
      cases before with
      | nil =>
        obtain ⟨rfl, rfl⟩ := List.cons.inj h
        exact ⟨[], ls, rfl, rfl, rfl, rfl, rfl⟩
      | cons t before =>
        obtain ⟨rfl, hrest⟩ := List.cons.inj h
        obtain ⟨front, back, rfl, rfl, hplaces⟩ := ih hrest
        exact ⟨⟨.token kind, text⟩ :: front, back, rfl, rfl, hplaces⟩

end Lexeme

namespace TokenStream

open Lexeme Token.Context Lexical

variable {source new : Text} {before after : List Token} {point name : Token}

/-- the source with another text in the place of a token -/
def replaced (source : Text) (k : Token) (new : Text) : Text :=
  source.take k.start.offset ++ (new ++ source.drop k.stop.offset)

/-- a token stands for its own text only -/
theorem replaced_eq {k : Token} {front back : Text} (hsource : source = front ++ (k.text ++ back))
    (hstart : k.start.offset = front.length) (hstop : k.stop = k.start.advance k.text) :
    replaced source k new = front ++ (new ++ back) := by
  have hoffset : k.stop.offset = (front ++ k.text).length := by
    rw [hstop, Position.offset_advance, hstart, List.length_append]
  rw [replaced, hstart, hoffset, hsource, List.take_left, ← List.append_assoc front k.text,
    List.drop_left]

/-- the lexemes around a member's name in a source -/
theorem exists_member (hfailure : (ofText source).failure = none)
    (htokens : (ofText source).tokens = before ++ point :: name :: after)
    (hpoint : point.kind = .punct) (hname : name.kind = .name) : ∃ lead gs tail,
      interpreterLine source ++ textOf (member lead gs tail point.text name.text) = source ∧
      Cuts {} (member lead gs tail point.text name.text) [] ∧ (∀ g ∈ gs, g.front = .gap) ∧
      Lexeme.tokens (.behind (interpreterLine source)) lead = before ∧
      Lexeme.tokens name.stop tail = after ∧
      ∀ new, replaced source name new = interpreterLine source ++
        textOf (member lead gs tail point.text new) := by
  obtain ⟨ls, rest, stopped, hsource, hcuts, hls, hstopped, hrest, -⟩ := exists_lexemes source
  obtain rfl : rest = [] := hrest.1 (Option.map_eq_none_iff.1 (hstopped ▸ hfailure))
  rw [List.append_nil] at hsource
  obtain ⟨lead, back, rfl, hlead, hstart, hstop, hback⟩ :=
    exists_of_tokens_eq_append (hls ▸ htokens)
  obtain ⟨gs, tail, rfl, hgs, hstart', hstop', htail⟩ :=
    exists_of_tokens_eq_append (show _ = [] ++ name :: after from hback)
  rw [hpoint, hname] at hsource hcuts
  refine ⟨lead, gs, tail, hsource.symm, hcuts, gap_of_tokens_eq_nil hgs, hlead, htail,
    fun new => ?_⟩
  have hoffset : name.start.offset =
      (interpreterLine source ++ (textOf lead ++ (point.text ++ textOf gs))).length := by
    rw [hstart', offset_stop, hstop, Position.offset_advance, hstart, offset_stop]
    simp only [List.length_append, Nat.add_assoc]
    rfl
  have hsplit : source = (interpreterLine source ++ (textOf lead ++ (point.text ++ textOf gs))) ++
      (name.text ++ textOf tail) := hsource.trans (by simp)
  rw [replaced_eq hsplit hoffset hstop']
  simp [member]

/-- Behind a member's dot another name is read as a name, and everything else as before, just where
it makes no difference which of the two names is there. -/
theorem rename_member (hfailure : (ofText source).failure = none)
    (htokens : (ofText source).tokens = before ++ point :: name :: after)
    (hpoint : point.kind = .punct)
    (htext : point.text = Text.ofString "." ∨ point.text = Text.ofString "?.")
    (hname : name.kind = .name) (hnew : Token.Readable .name new) :
    ((ofText (replaced source name new)).failure = none ∧
      (ofText (replaced source name new)).tokens.map Token.face =
        before.map Token.face ++ point.face :: (.name, new) :: after.map Token.face) ↔
      Token.Indifferent name.text new (after.map Token.face) := by
  obtain ⟨lead, gs, tail, hsource, hcuts, hgap, hbefore, hafter, hreplaced⟩ :=
    exists_member hfailure htokens hpoint hname
  have hfaces : ∀ p, (Lexeme.tokens p (member lead gs tail point.text new)).map Token.face =
      before.map Token.face ++ point.face :: (.name, new) :: after.map Token.face := by
    intro p
    rw [map_face_member hgap p _ _, hbefore, hafter, Token.face, hpoint]
  -- behind the name, the contexts differ in the answers that depend on it
  have hold := legal_behind_member hgap (legal_of_cuts hcuts)
  have hindifferent :
      (((contextAfter {} lead).after .punct point.text).after .name new).Legal (words none tail) ↔
      Token.Indifferent name.text new (after.map Token.face) := by
    have hbeside :
        (((contextAfter {} lead).after .punct point.text).after .name new).Legal (words none tail) ↔
        _ :=
      hold.beside rfl rfl rfl
    rw [map_face_words _ name.stop, hafter] at hbeside
    exact hbeside
  rw [← hindifferent, hreplaced]
  constructor
  · rintro ⟨-, htokens'⟩
    obtain ⟨ls, rest, -, -, hcuts', hls, -⟩ :=
      exists_lexemes (interpreterLine source ++ textOf (member lead gs tail point.text new))
    have hlegal : Token.Context.Legal {} (words none ls) := legal_of_cuts hcuts'
    refine legal_behind_member hgap (hlegal.of_face ?_)
    rw [map_face_words, ← hls, htokens', map_face_words _ .start, hfaces]
  · intro hl
    have hcut := cut_behind_hashbang (by rw [textOf_hashbang, hsource])
      (stops_member (by rcases htext with h | h <;> simp [h, Text.ofString]))
        (cuts_member htext hgap hcuts hnew hl)
    rw [textOf_hashbang] at hcut
    simp only [ofText, hcut]
    refine ⟨rfl, ?_⟩
    rw [tokens_gaps (hashbang_gap source), hfaces]

/-- A call of a member with the name of a keyword, and another behind it: neither what comes behind
the name nor what comes behind its parentheses is a slash. -/
theorem rename_member_call : ∃ before point name after,
    (ofText (Text.ofString "a?.if(b)(c)+/d/")).failure = none ∧
      (ofText (Text.ofString "a?.if(b)(c)+/d/")).tokens = before ++ point :: name :: after ∧
      point.kind = .punct ∧ point.text = Text.ofString "?." ∧ name.kind = .name ∧
      name.text = Text.ofString "if" ∧ Token.Readable .name (Text.ofString "of") ∧
      Token.Indifferent name.text (Text.ofString "of") (after.map Token.face) ∧
      replaced (Text.ofString "a?.if(b)(c)+/d/") name (Text.ofString "of") =
        Text.ofString "a?.of(b)(c)+/d/" ∧
      (ofText (Text.ofString "a?.of(b)(c)+/d/")).failure = none ∧
      (ofText (Text.ofString "a?.of(b)(c)+/d/")).tokens.map Token.face =
        before.map Token.face ++ point.face :: (.name, Text.ofString "of") ::
          after.map Token.face := by
  have hfailure : (ofText (Text.ofString "a?.if(b)(c)+/d/")).failure = none := by decide +kernel
  have htokens : (ofText (Text.ofString "a?.if(b)(c)+/d/")).tokens =
      (ofText (Text.ofString "a?.if(b)(c)+/d/")).tokens.take 1 ++ ⟨.punct, Text.ofString "?.",
        ⟨1, 1, 2⟩, ⟨3, 1, 4⟩⟩ ::
        ⟨.name, Text.ofString "if", ⟨3, 1, 4⟩, ⟨5, 1, 6⟩⟩ ::
        (ofText (Text.ofString "a?.if(b)(c)+/d/")).tokens.drop 3 := by
    rfl
  have hnew : Token.Readable .name (Text.ofString "of") :=
    ⟨{}, .char 'o', Text.ofString "f", [], rfl, Token.Context.front_eq_ok.1 (by decide)⟩
  have hindifferent : Token.Indifferent (Text.ofString "if") (Text.ofString "of")
      (((ofText (Text.ofString "a?.if(b)(c)+/d/")).tokens.drop 3).map Token.face) := by
    decide +kernel
  exact ⟨_, _, _, _, hfailure, htokens, rfl, rfl, rfl, rfl, hnew, hindifferent, by decide,
    (rename_member hfailure htokens rfl (.inr rfl) rfl hnew).2 hindifferent⟩

/-- behind a member with the name of an operator, a division is read as a regular expression that is
not closed -/
theorem rename_member_division : ∃ before point name after,
    (ofText (Text.ofString "a.b / c")).failure = none ∧
      (ofText (Text.ofString "a.b / c")).tokens = before ++ point :: name :: after ∧
      point.kind = .punct ∧ point.text = Text.ofString "." ∧ name.kind = .name ∧
      Token.Readable .name (Text.ofString "in") ∧
      replaced (Text.ofString "a.b / c") name (Text.ofString "in") = Text.ofString "a.in / c" ∧
      (ofText (Text.ofString "a.in / c")).failure =
        some (.source ⟨.unterminatedRegex, some (1, 6)⟩) := by
  have htokens : (ofText (Text.ofString "a.b / c")).tokens =
      (ofText (Text.ofString "a.b / c")).tokens.take 1 ++ ⟨.punct, Text.ofString ".", ⟨1, 1, 2⟩,
        ⟨2, 1, 3⟩⟩ ::
        ⟨.name, Text.ofString "b", ⟨2, 1, 3⟩, ⟨3, 1, 4⟩⟩ ::
        (ofText (Text.ofString "a.b / c")).tokens.drop 3 := by
    rfl
  have hnew : Token.Readable .name (Text.ofString "in") :=
    ⟨{}, .char 'i', Text.ofString "n", [], rfl, Token.Context.front_eq_ok.1 (by decide)⟩
  exact ⟨_, _, _, _, by decide +kernel, htokens, rfl, rfl, rfl, hnew, by decide, by decide +kernel⟩

end TokenStream

end Relocation
