import Relocation.Proofs.Inside

/-!
# What stands between tokens

`Lexical.IsGap` says of a text that it is made of blanks, line ends and comments, each of them
complete where it stands.  `TokenStream.Tiles`: the tokens of a stream are stretches of the source,
one behind the other, with gaps between them.  Every stream has it (`TokenStream.tiles_ofText`), one
that ends early too.
-/

namespace Relocation

namespace Lexical

/-- blanks, line ends and comments in any number, with a text behind them -/
inductive IsGap (behind : Text) : Text → Prop
  | nil : IsGap behind []
  | cons {t rest : Text} (ht : IsFiller (rest ++ behind) t) (hrest : IsGap behind rest) :
    IsGap behind (t ++ rest)

variable {behind a b : Text}

theorem IsFiller.isGap (h : IsFiller behind a) : IsGap behind a := by
  rw [← List.append_nil a]
  exact .cons h .nil

theorem IsGap.append (ha : IsGap (b ++ behind) a) (hb : IsGap behind b) :
    IsGap behind (a ++ b) := by
  induction ha with
  | nil => exact hb
  | cons ht _ ih =>
    rw [List.append_assoc]
    exact .cons (by rwa [List.append_assoc]) ih

end Lexical

open Lexical

namespace Token

/-- the tokens stand in the text, which begins at an offset, one after the other with gaps between
them; behind the last one a gap is followed by `rest` -/
def Paves (rest : Text) : (offset : Nat) → Text → List Token → Prop
  | _, t, [] => ∃ gap, t = gap ++ rest ∧ IsGap rest gap
  | offset, t, k :: ks =>
    ∃ gap behind, t = gap ++ (k.text ++ behind) ∧ IsGap (k.text ++ behind) gap ∧ k.text ≠ [] ∧
      k.start.offset = offset + gap.length ∧ k.stop.offset = k.start.offset + k.text.length ∧
      Paves rest k.stop.offset behind ks

variable {rest gap t : Text} {ks : List Token} {offset : Nat}

theorem Paves.prepend {lead : Nat} (h : Paves rest offset t ks) (hgap : IsGap t gap)
    (hlead : lead + gap.length = offset) : Paves rest lead (gap ++ t) ks := by
  cases ks with
  | nil =>
    obtain ⟨gap', rfl, hgap'⟩ := h
    exact ⟨gap ++ gap', by simp, hgap.append hgap'⟩
  | cons k ks =>
    obtain ⟨gap', behind, rfl, hgap', hne, hstart, hstop, htail⟩ := h
    refine ⟨gap ++ gap', behind, by simp, hgap.append hgap', hne, ?_, hstop, htail⟩
    rw [hstart, ← hlead, List.length_append, Nat.add_assoc]

end Token

namespace Lexeme

variable {ctx : Token.Context} {ls : List Lexeme} {rest : Text}

theorem paves_tokens (p : Position) (h : Cuts ctx ls rest) :
    Token.Paves rest p.offset (textOf ls ++ rest) (tokens p ls) := by
  induction ls generalizing ctx p with
  | nil => exact ⟨[], rfl, .nil⟩
  | cons l ls ih =>
    obtain ⟨front, text⟩ := l
    obtain ⟨⟨c, t, ht, hread⟩, hls⟩ := h
    obtain rfl : text = c :: t := ht
    have ih := ih (p.advance (c :: t)) hls
    rw [textOf_cons, List.append_assoc]
    cases front with
    | gap =>
      have hread : ctx.Reads c (t ++ (textOf ls ++ rest)) .gap t.length := hread
      exact ih.prepend hread.isFiller.isGap (Position.offset_advance p (c :: t)).symm
    | token kind =>
      exact ⟨[], textOf ls ++ rest, rfl, .nil, by simp, rfl, Position.offset_advance p (c :: t), ih⟩

end Lexeme

/-! ## tokens as stretches of the source -/

namespace Token

/-- how far tokens reach in a text whose first `lead` characters come before all of them -/
def reach (lead : Nat) (ts : List Token) : Nat := (ts.getLast?.map (·.stop.offset)).getD lead

@[simp] theorem reach_nil (lead : Nat) : reach lead [] = lead := rfl

@[simp] theorem reach_cons (lead : Nat) (k : Token) (ks : List Token) :
    reach lead (k :: ks) = reach k.stop.offset ks := by
  unfold reach
  rw [List.getLast?_cons]
  cases ks.getLast? <;> rfl

/-- behind the first `lead` characters the source is the tokens, gaps around them, and `rest` -/
structure Tiles (source : Text) (lead : Nat) (rest : Text) (ts : List Token) : Prop where
  /-- a token has the characters of the source from its start to its end, and at least one -/
  stretch : ∀ k ∈ ts, lead ≤ k.start.offset ∧ k.start.offset < k.stop.offset ∧
    k.stop.offset ≤ source.length ∧ (source.take k.stop.offset).drop k.start.offset = k.text
  /-- a token begins where the ones before it have ended, or later -/
  ascend : ts.Pairwise fun a b => a.stop.offset ≤ b.start.offset
  /-- what stands before a token, behind the one before it, is a gap -/
  between : ∀ before k after, ts = before ++ k :: after →
    IsGap (source.drop k.start.offset) ((source.take k.start.offset).drop (reach lead before))
  /-- what stands behind the last token is a gap and the rest -/
  behind : ∃ gap, source.drop (reach lead ts) = gap ++ rest ∧ IsGap rest gap

variable {rest lead t : Text} {ks : List Token}

theorem Paves.tiles (h : Paves rest lead.length t ks) : Tiles (lead ++ t) lead.length rest ks := by
  induction ks generalizing lead t with
  | nil =>
    refine ⟨fun k hk => ?_, .nil, fun before k after hk => ?_, ?_⟩
    · cases hk
    · cases before <;> cases hk
    · rw [reach_nil, List.drop_left]
      exact h
  | cons k ks ih =>
    obtain ⟨gap, behind, rfl, hgap, hne, hfrom, hwidth, htail⟩ := h
    have hstart : (lead ++ gap).length = k.start.offset := by rw [hfrom, List.length_append]
    have hstop : (lead ++ gap ++ k.text).length = k.stop.offset := by
      rw [hwidth, ← hstart, List.length_append]
    have hsource : lead ++ (gap ++ (k.text ++ behind)) = lead ++ gap ++ k.text ++ behind := by simp
    rw [← hstop] at htail
    obtain ⟨hstretch, hascend, hbetween, hbehind⟩ := ih htail
    rw [hstop] at hstretch hbetween hbehind
    have hpos : 0 < k.text.length := List.length_pos_of_ne_nil hne
    rw [hsource]
    refine ⟨fun k' hk' => ?_, ?_, fun before k' after hk' => ?_, ?_⟩
    · rcases List.mem_cons.1 hk' with rfl | hk'
      · refine ⟨by omega, by omega, ?_, ?_⟩
        · rw [← hstop]
          exact (List.prefix_append _ behind).length_le
        · rw [← hstop, List.take_left, ← hstart, List.drop_left]
      · obtain ⟨hfrom, hrest⟩ := hstretch k' hk'
        exact ⟨by omega, hrest⟩
    · exact List.pairwise_cons.2 ⟨fun k' hk' => (hstretch k' hk').1, hascend⟩
    · cases before with
      | nil =>
        obtain ⟨rfl, rfl⟩ := List.cons.inj hk'
        rw [reach_nil, ← hstart, List.append_assoc (lead ++ gap), List.drop_left, List.take_left,
          List.drop_left]
        exact hgap
      | cons first before =>
        obtain ⟨rfl, hks⟩ := List.cons.inj hk'
        rw [reach_cons]
        exact hbetween before k' after hks
    · rw [reach_cons]
      exact hbehind

end Token

namespace TokenStream

/-- the line in front that names an interpreter, if there is one -/
def interpreterLine (source : Text) : Text :=
  if [.char '#', .char '!'].isPrefixOf source then source.takeWhile fun c =>
    !c.isLineTerminator else []

theorem textOf_hashbang (source : Text) :
    Lexeme.textOf (Lexeme.hashbang source) = interpreterLine source := by
  unfold Lexeme.hashbang interpreterLine
  split
  · rename_i r
    have hmark :
        [CodePoint.char '#', .char '!'].isPrefixOf (.char '#' :: .char '!' :: r) = true := by simp
    have hline : (r.takeWhile fun c => !c.isLineTerminator) = r.take (lineLength r) :=
      (List.prefix_iff_eq_take.1 (List.takeWhile_prefix _))
    rw [if_pos hmark, List.takeWhile_cons_of_pos (by decide),
      List.takeWhile_cons_of_pos (by decide), hline]
    simp
  · rename_i hne
    rw [if_neg]
    · rfl
    · intro hmark
      obtain ⟨r, hr⟩ := List.isPrefixOf_iff_prefix.1 hmark
      exact hne r hr.symm

/-- The tokens of a text tile it: each is a stretch of the text with at least one character, none
overlap, and what stands before, between and behind them is gaps.  Only a first line that names an
interpreter is left out.  Where cutting ends early something is left of the text behind the tokens
and gaps, and only there. -/
theorem tiles_ofText (source : Text) : ∃ rest,
    Token.Tiles source (interpreterLine source).length rest (ofText source).tokens ∧
      ((ofText source).failure = none ↔ rest = []) := by
  obtain ⟨t, hsource, hcut⟩ := Lexeme.exists_cut source
  obtain ⟨rest, htext, hcuts, hstopped⟩ :=
    Lexeme.cuts_of_cutFrom_eq (show Lexeme.cutFrom {} 0 t = (_, _) from rfl)
  have hoffset :
      (Lexeme.stop .start (Lexeme.hashbang source)).offset = (interpreterLine source).length := by
    rw [Lexeme.offset_stop, textOf_hashbang]
    exact Nat.zero_add _
  have htokens : (ofText source).tokens =
      Lexeme.tokens (Lexeme.stop .start (Lexeme.hashbang source)) (Lexeme.cutFrom {} 0 t).1 := by
    rw [ofText, hcut]
    exact Lexeme.tokens_gaps (Lexeme.hashbang_gap source)
  have hpaves := Lexeme.paves_tokens (Lexeme.stop .start (Lexeme.hashbang source)) hcuts
  rw [hoffset, ← htext, ← htokens] at hpaves
  refine ⟨rest, ?_, ?_⟩
  · rw [textOf_hashbang] at hsource
    have := hpaves.tiles
    rwa [hsource] at this
  · rw [← hstopped, ofText, hcut]
    simp

end TokenStream

end Relocation
