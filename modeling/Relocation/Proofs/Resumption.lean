import Relocation.Proofs.Renaming

/-!
# Behind a prefix of the tokens

A prefix of the tokens leaves a context, and the next token is read in it where the next lexeme
stands (`TokenStream.reads_of_tokens`).  Wherever a gap behind the prefix ends, cutting can be
resumed: what is left of the text is cut into the other tokens, and fails as the whole text does
(`TokenStream.exists_resumes`).
-/

namespace Relocation

/-! ## gaps as lexemes -/

namespace Token.Context

open Lexical

variable {t behind : Text}

/-- a gap is cut into lexemes that leave no trace -/
theorem exists_cuts_of_isGap (h : IsGap behind t) (ctx : Context) :
    ∃ gs, Lexeme.textOf gs = t ∧ (∀ g ∈ gs, g.front = .gap) ∧ Lexeme.Cuts ctx gs behind := by
  induction h with
  | nil => exact ⟨[], rfl, List.forall_mem_nil _, trivial⟩
  | @cons t rest ht _ ih =>
    obtain ⟨gs, rfl, hgap, hcuts⟩ := ih
    obtain ⟨c, r, rfl⟩ := ht.exists_eq_cons
    exact ⟨⟨.gap, c :: r⟩ :: gs, rfl, List.forall_mem_cons.2 ⟨rfl, hgap⟩,
      ⟨c, r, rfl, reads_of_isFiller ht ctx⟩, hcuts⟩

end Token.Context

/-! ## lexemes up to a token -/

namespace Lexeme

variable {ctx : Token.Context} {ls : List Lexeme} {p : Position} {before rest : List Token}
  {left : Text}

/-- the lexemes up to the last of some tokens, and those behind it -/
theorem exists_front (h : tokens p ls = before ++ rest) : ∃ front back,
    ls = front ++ back ∧ tokens p front = before ∧ tokens (stop p front) back = rest ∧
      (stop p front).offset = Token.reach p.offset before := by
  rcases List.eq_nil_or_concat before with rfl | ⟨init, k, rfl⟩
  · exact ⟨[], ls, rfl, rfl, h, rfl⟩
  · rw [List.concat_eq_append, List.append_assoc, List.singleton_append] at h
    obtain ⟨front, back, rfl, hfront, hstart, hstop, hback⟩ := exists_of_tokens_eq_append h
    have hbehind : stop p (front ++ [⟨.token k.kind, k.text⟩]) = k.stop := by
      rw [stop_append, hstop, hstart]; rfl
    refine ⟨front ++ [⟨.token k.kind, k.text⟩], back, by simp, ?_, by rw [hbehind, hback], ?_⟩
    · rw [tokens_append, hfront, List.concat_eq_append, tokens, tokens, ← hstart, ← hstop]
    · rw [hbehind, Token.reach, List.concat_eq_append, List.getLast?_concat]
      rfl

/-- behind the line of an interpreter, lexemes reach up to where they stop -/
theorem drop_stop {source line : Text} (h : source = line ++ (textOf ls ++ left)) :
    source.drop (stop (.behind line) ls).offset = left := by
  have hoffset : (stop (.behind line) ls).offset = (line ++ textOf ls).length := by
    rw [offset_stop, List.length_append]
    rfl
  rw [hoffset, h, ← List.append_assoc, List.drop_left]

/-- what is left is not cut any further -/
theorem cutFrom_eq_nil {stopped : Option Token.Context.Refusal} (hend : stopped = none → left = [])
    (hrefused : ∀ e ∈ stopped, ∃ c r, left = c :: r ∧ ctx.Refuses c r e) :
    cutFrom ctx 0 left = ([], stopped) := by
  cases stopped with
  | none =>
    obtain rfl := hend rfl
    rfl
  | some e =>
    obtain ⟨c, r, rfl, hrefuses⟩ := hrefused e rfl
    rw [cutFrom, Token.Context.front_of_refuses hrefuses]

end Lexeme

namespace TokenStream

open Lexeme Lexical

variable {source gap left : Text} {before after rest : List Token} {k : Token}

/-- the next token is read in the context that the ones before it leave -/
theorem reads_of_tokens (h : (ofText source).tokens = before ++ k :: after) :
    ∃ c t, k.text = c :: t ∧ (Token.Context.behind before).Reads c (t ++ source.drop k.stop.offset)
      (.token k.kind) t.length := by
  obtain ⟨ls, left, -, hsource, hcuts, htokens, -⟩ := exists_lexemes source
  obtain ⟨front, back, rfl, rfl, hstart, hstop, -⟩ := exists_of_tokens_eq_append (htokens ▸ h)
  obtain ⟨c, t, htext, hread⟩ := (cuts_append.1 hcuts).2.1
  refine ⟨c, t, htext, ?_⟩
  have hbehind :
      stop (.behind (interpreterLine source)) (front ++ [⟨.token k.kind, k.text⟩]) = k.stop := by
    rw [stop_append, hstop, hstart]
    rfl
  rw [List.append_cons front, textOf_append, List.append_assoc] at hsource
  rw [← hbehind, drop_stop hsource, Token.Context.behind, ← contextAfter_eq_foldl]
  exact hread

/-- cutting goes on in a context at a position of the source: what is left there is cut into the
tokens, and fails as the whole source does -/
structure Resumes (source : Text) (ctx : Token.Context) (p : Position)
    (ts : List Token) : Prop where
  exact : p.Exact source
  tokens : Lexeme.tokens p (cutFrom ctx 0 (source.drop p.offset)).1 = ts
  failure : (ofText source).failure = (cutFrom ctx 0 (source.drop p.offset)).2.map
    (·.failure (stop p (cutFrom ctx 0 (source.drop p.offset)).1))

variable {ctx : Token.Context} {p : Position} {ts : List Token} {c : CodePoint} {r : Text}
  {kind : Token.Kind}

/-- a token that is read there comes next -/
theorem Resumes.eq_cons {n : Nat} (h : Resumes source ctx p ts)
    (hdrop : source.drop p.offset = c :: r) (hread : ctx.Reads c r (.token kind) n) :
    ∃ after, ts = ⟨kind, c :: r.take n, p, p.advance (c :: r.take n)⟩ :: after := by
  have htokens := h.tokens
  rw [hdrop, cutFrom, Token.Context.front_of_reads hread] at htokens
  exact ⟨_, htokens.symm⟩

/-- behind what is refused there nothing comes -/
theorem Resumes.eq_nil {e : Token.Context.Refusal} (h : Resumes source ctx p ts)
    (hdrop : source.drop p.offset = c :: r) (hrefuses : ctx.Refuses c r e) : ts = [] ∧
    (ofText source).failure = some (e.failure p) := by
  have hcut : cutFrom ctx 0 (c :: r) = ([], some e) := by
    rw [cutFrom, Token.Context.front_of_refuses hrefuses]
  have htokens := h.tokens
  have hfailure := h.failure
  rw [hdrop, hcut] at htokens hfailure
  exact ⟨htokens.symm, hfailure⟩

/-- what stands behind the line of an interpreter, and what it is cut into -/
theorem exists_cutFrom (source : Text) : ∃ t ls stopped, source = interpreterLine source ++ t ∧
    cutFrom {} 0 t = (ls, stopped) ∧
    (ofText source).tokens = Lexeme.tokens (.behind (interpreterLine source)) ls ∧
      (ofText source).failure =
        stopped.map (·.failure (stop (.behind (interpreterLine source)) ls)) := by
  obtain ⟨ls, left, stopped, hsource, hcuts, htokens, hfailure, hend, hrefused⟩ :=
    exists_lexemes source
  rw [Token.Context.behind, htokens, ← contextAfter_eq_foldl] at hrefused
  refine ⟨textOf ls ++ left, ls, stopped, hsource, ?_, htokens, ?_⟩
  · rw [cutFrom_textOf_append hcuts, cutFrom_eq_nil hend.1 hrefused, List.append_nil]
  · rw [hfailure, stop_of_cuts hcuts (seam_interpreterLine source _)]

/-- Wherever a gap behind a prefix of the tokens ends, cutting goes on in the context that they
leave. -/
theorem exists_resumes (h : (ofText source).tokens = before ++ rest)
    (hleft : source.drop (Token.reach (interpreterLine source).length before) = gap ++ left)
    (hgap : IsGap left gap) : ∃ p : Position, source.drop p.offset = left ∧
      p.offset = Token.reach (interpreterLine source).length before + gap.length ∧
      Resumes source (.behind before) p rest := by
  obtain ⟨t, ls, stopped, hsource, hcut, htokens, hfailure⟩ := exists_cutFrom source
  obtain ⟨tail, rfl, hcuts, -⟩ := cuts_of_cutFrom_eq hcut
  obtain ⟨front, back, rfl, hfront, hback, hreach⟩ := exists_front (htokens ▸ h)
  obtain ⟨gs, rfl, hgaps, hcutsGaps⟩ := Token.Context.exists_cuts_of_isGap hgap (.behind before)
  have hcontext : contextAfter {} front = .behind before := by
    rw [Token.Context.behind, ← hfront, ← contextAfter_eq_foldl]
  -- the text behind the prefix is the gap and what is left, so the gap's lexemes come next
  rw [textOf_append, List.append_assoc] at hsource hcut
  have hbehind : textOf back ++ tail = textOf gs ++ left := by
    rw [← drop_stop hsource, hreach]
    exact hleft
  have hlead : Cuts {} (front ++ gs) left :=
    cuts_append.2 ⟨hbehind ▸ (cuts_append.1 hcuts).1, hcontext ▸ hcutsGaps⟩
  have htext : textOf front ++ (textOf back ++ tail) = textOf (front ++ gs) ++ left := by
    rw [hbehind, textOf_append, List.append_assoc]
  have hcontext' : contextAfter {} (front ++ gs) = .behind before := by
    rw [contextAfter_eq_foldl, tokens_gaps_behind hgaps, hfront, Token.Context.behind]
  rw [htext] at hsource hcut
  rw [cutFrom_textOf_append hlead, hcontext'] at hcut
  obtain ⟨hlexemes, rfl⟩ := Prod.mk.inj hcut
  have hdrop := drop_stop hsource
  refine ⟨stop (.behind (interpreterLine source)) (front ++ gs), hdrop, ?_, ?_, ?_, ?_⟩
  · rw [stop_append, offset_stop, hreach]
    rfl
  · rw [stop_of_cuts hlead (seam_interpreterLine source _)]
    have hexact := Position.exact_behind (interpreterLine source ++ textOf (front ++ gs)) left
    rwa [List.append_assoc, ← hsource] at hexact
  · rw [List.append_assoc] at hlexemes
    rw [hdrop, stop_append, ← tokens_gaps hgaps, List.append_cancel_left hlexemes, hback]
  · rw [hdrop, hfailure, ← hlexemes, stop_append]

end TokenStream

end Relocation
