import Relocation.Proofs.Visiting

/-!
# Texts with string literals in the place of splits

`Split.Patched` relates a text to one with other texts in the place of its splits.  Filling in a
plan gives such a text (`Plan.fill_of_patched`).  If string literals take the place of the splits of
a program, the lexemes around are the same (`Split.Freezes.exists_refilled`).
-/

namespace Relocation

namespace Split

/-- the part of a text that the split covers -/
def slice (s : Split) (text : Text) : Text := (text.take s.stop.toNat).drop s.start.toNat

/-- the second text is the first one, which begins at an offset, with other texts in the place of
the splits -/
inductive Patched (frozen : Split → Text) : Nat → List Split → Text → Text → Prop
  | nil (n : Nat) (a : Text) : Patched frozen n [] a a
  | cons {n : Nat} {s : Split} {splits : List Split} (gap hole : Text) {a b : Text} :
    s.start = n + gap.length →
    s.stop = n + gap.length + hole.length →
    Patched frozen (n + gap.length + hole.length) splits a b →
    Patched frozen n (s :: splits) (gap ++ (hole ++ a)) (gap ++ (frozen s ++ b))

variable {frozen : Split → Text} {n : Nat} {splits : List Split} {a b : Text}

theorem Patched.prepend (t : Text) (h : Patched frozen (n + t.length) splits a b) :
    Patched frozen n splits (t ++ a) (t ++ b) := by
  cases h with
  | nil => exact .nil n _
  | cons gap hole hstart hstop h =>
    have hlength : n + (t ++ gap).length = n + t.length + gap.length := by
      rw [List.length_append, Nat.add_assoc]
    simpa only [List.append_assoc] using cons (t ++ gap) hole (by omega) (by omega)
      (by rwa [hlength])

end Split

/-! ## plans -/

namespace Plan

open Split (Patched Ascending)

variable {frozen : Split → Text} {value : Substitution → Except Failure Text} {source : Text}

/-- cutting off the splits of the rest of a text leaves what stands before them, and what is filled
in for the rest -/
theorem exists_cutAll {n : Nat} {splits : List Split} {a b : Text}
    (h : Patched frozen n splits a b) : ∀ front : Text, front.length = n → source = front ++ a →
    (∀ s ∈ splits, ∃ substitution, Substitution.ofSplit source s = .ok substitution ∧
      value substitution = .ok (frozen s)) → ∃ limit done tail, n ≤ limit ∧
      (∀ more, cutAll source source.length [] (splits.reverse ++ more) =
        cutAll source limit done more) ∧
      fillRest value done = .ok tail ∧ (source.take limit).drop n ++ tail = b := by
  induction h with
  | nil n a =>
    intro front hn hsource _
    refine ⟨source.length, [], [], ?_, fun more => rfl, rfl, ?_⟩
    · rw [hsource, List.length_append]
      omega
    · rw [List.take_length, hsource, ← hn, List.drop_left, List.append_nil]
  | @cons n s splits gap hole a b hstart hstop _ ih =>
    intro front hn hsource hvalue
    obtain ⟨⟨substitution, hsubstitution, hfrozen⟩, hvalue⟩ := List.forall_mem_cons.1 hvalue
    obtain ⟨limit, done, tail, hlimit, hcut, hdone, htail⟩ := ih (front ++ gap ++ hole)
      (by simp only [List.length_append]; omega) (by simp [hsource]) hvalue
    have hrange : 0 ≤ s.start ∧ s.start ≤ s.stop ∧ s.stop ≤ limit := by omega
    have htoStart : s.start.toNat = n + gap.length := by omega
    have htoStop : s.stop.toNat = n + gap.length + hole.length := by omega
    refine ⟨n + gap.length,
      (substitution, (source.take limit).drop (n + gap.length + hole.length)) :: done,
      frozen s ++ b, Nat.le_add_right _ _, fun more => ?_, ?_, ?_⟩
    · rw [List.reverse_cons, List.append_assoc, hcut, List.singleton_append, cutAll, if_pos hrange,
        hsubstitution, htoStart, htoStop]
      rfl
    · rw [fillRest, hfrozen, hdone, ← htail, ← List.append_assoc]
      rfl
    · have hfront : source.take (n + gap.length) = front ++ gap := by
        rw [hsource, ← List.append_assoc, ← hn, ← List.length_append, List.take_left]
      rw [hfront, ← hn, List.drop_left]

/-- splits are cut off in the opposite of document order, whatever the order they come in -/
theorem mergeSort_of_perm {splits ordered : List Split} (hperm : splits.Perm ordered)
    (h : Ascending ordered) :
    (splits.mergeSort fun a b => decide (b.start ≤ a.start)) = ordered.reverse := by
  have hsort := (List.mergeSort_perm splits fun a b => decide (b.start ≤ a.start)).trans hperm
  have hsorted : (splits.mergeSort fun a b => decide (b.start ≤ a.start)).Pairwise fun a b =>
      decide (b.start ≤ a.start) :=
    List.pairwise_mergeSort (fun a b c hab hbc => by simp only [decide_eq_true_eq] at *; omega)
      (fun a b => by simp only [Bool.or_eq_true, decide_eq_true_eq]; omega) splits
  have hne : ordered.Pairwise fun a b => a.start ≠ b.start := h.imp ne_of_lt
  have hstrict : (splits.mergeSort fun a b => decide (b.start ≤ a.start)).Pairwise fun a b =>
      b.start < a.start := by
    refine (hsorted.and (hsort.symm.pairwise hne Ne.symm)).imp fun {a b} hab => ?_
    have := of_decide_eq_true hab.1
    have := hab.2
    omega
  refine (hsort.trans (List.reverse_perm ordered).symm).eq_of_pairwise
    (fun a b _ _ hab hba => ?_) hstrict
      (List.pairwise_reverse.2 h)
  exact absurd (hab.trans hba) (lt_irrefl _)

/-- splits in document order are cut off in the opposite order -/
theorem mergeSort_of_ascending {splits : List Split} (h : Ascending splits) :
    (splits.mergeSort fun a b => decide (b.start ≤ a.start)) = splits.reverse :=
  mergeSort_of_perm (.refl splits) h

/-- a text whose splits are found in document order is cut at them from the last to the first -/
theorem planOf_eq_cutAll {t : Text} {splits : List Split}
    (h : (Program.read t >>= fun p => Split.scanFrom false 0 p.items) = .ok splits)
    (hascending : Ascending splits) : Compile.planOf t = cutAll t t.length [] splits.reverse := by
  obtain ⟨p, hread, hsplits⟩ := Split.exists_read_splits h (hascending.imp le_of_lt)
  rw [Compile.planOf, hread]
  simp only [bind, Except.bind, hsplits, ofSplits]
  rw [mergeSort_of_ascending hascending]

/-- a text with other texts in the place of its splits is what its plan gives when these are filled
in -/
theorem fill_of_patched (value : Substitution → Except Failure Text) {splits : List Split}
    {b : Text} (h : Patched frozen 0 splits source b) (hascending : Ascending splits)
    (hvalue : ∀ s ∈ splits, ∃ substitution, Substitution.ofSplit source s = .ok substitution ∧
      value substitution = .ok (frozen s)) :
    ∃ plan, ofSplits source splits = .ok plan ∧ plan.fill value = .ok b := by
  obtain ⟨limit, done, tail, -, hcut, hdone, htail⟩ :=
    exists_cutAll h [] rfl (List.nil_append source).symm hvalue
  refine ⟨⟨source, source.take limit, done⟩, ?_, ?_⟩
  · rw [ofSplits, mergeSort_of_ascending hascending, ← List.append_nil splits.reverse, hcut]
    rfl
  · rw [fill, hdone, ← htail]
    rfl

end Plan

/-! ## lexemes -/

namespace Lexeme

open Token (withBreaks)

variable {p : Position} {last : Option Nat} {gs ls : List Lexeme} {ctx : Token.Context}

/-- whether a line break comes before a first token depends on the gaps before it only -/
theorem words_behind_gaps {t : Token} {newline : Bool} {ts : List (Token × Bool)}
    {more : List Lexeme} (hlast : ∀ line ∈ last, line ≤ p.line) (hgap : ∀ g ∈ gs, g.front = .gap)
    (h : withBreaks last (tokens p (gs ++ ⟨.token t.kind, t.text⟩ :: more)) = (t, newline) :: ts)
    (kind : Token.Kind) (text : Text) (rest : List Lexeme) :
    words (last.map fun line => decide (line < p.line)) (gs ++ ⟨.token kind, text⟩ :: rest) =
      ⟨kind, text, newline⟩ :: words (some false) rest := by
  have hwords :
      (withBreaks last (tokens p (gs ++ ⟨.token t.kind, t.text⟩ :: more))).map Word.ofToken = _ :=
    map_withBreaks last hlast
  rw [h, words_append_gaps hgap, words] at hwords
  rw [words_append_gaps hgap, words]
  have hnewline : newline = _ := congrArg Word.newline (List.cons.inj hwords).1
  simp only [hnewline]

end Lexeme

namespace Split

open Token (withBreaks)
open Lexeme

variable {known splits : List Split} {frozen : Split → Text}

/-- a string literal can take the place of the lexemes of a split -/
theorem Fills.vacates {s : Split} {t : Token} {newline : Bool} {more : List (Token × Bool)}
    {mid : List Lexeme} (broken : Option Bool) (h : Fills s ((t, newline) :: more))
    (hwords : words broken (⟨.token t.kind, t.text⟩ :: mid) = Word.ofToken (t, newline) ::
      more.map Word.ofToken) : Vacates (⟨.token t.kind, t.text⟩ :: mid) := by
  have hcontext : ∀ ctx, contextAfter ctx (⟨.token t.kind, t.text⟩ :: mid) =
      ctx.afterAll (((t, newline) :: more).map Word.ofToken) := by
    intro ctx
    rw [contextAfter_eq_afterAll broken, hwords, List.map_cons]
  obtain ⟨t', newline', more', heq, -, c, r, htext, hc⟩ := h.first
  obtain ⟨rfl, -⟩ := Prod.mk.inj (List.cons.inj heq).1
  refine ⟨⟨c, r ++ textOf mid, ?_, hc⟩, fun ctx => ?_, fun ctx => ?_, fun ctx => ?_⟩
  · rw [textOf_cons, htext, List.cons_append]
  · rw [hcontext, h.braces]
  · rw [hcontext, h.parens]
  · rw [hcontext, h.left]

/-- the lexemes of a text with string literals in the place of those of its splits -/
theorem Freezes.exists_refilled {ts : List (Token × Bool)} {ws : List Word}
    (h : Freezes frozen known splits ts ws) (hstring : ∀ s ∈ known, IsString (frozen s)) :
    ∀ {p : Position} {last : Option Nat} {ls : List Lexeme}, (∀ line ∈ last, line ≤ p.line) →
      withBreaks last (tokens p ls) = ts →
      ∃ ls', Refilled ls ls' ∧ words (last.map fun line => decide (line < p.line)) ls' = ws ∧
        Patched frozen p.offset splits (textOf ls) (textOf ls') := by
  induction h with
  | nil =>
    intro p last ls hlast hts
    refine ⟨ls, .refl ls, ?_, .nil _ _⟩
    rw [← map_withBreaks last hlast, hts]
    rfl
  | keep t _ ih =>
    intro p last ls hlast hts
    obtain ⟨t, newline⟩ := t
    obtain ⟨gs, more, rfl, hgap, hstart, hstop, hrest⟩ := withBreaks_eq_cons hts
    obtain ⟨more', hrefilled, hwords, hpatched⟩ := ih (by simp) hrest
    have hstops : t.stop.offset = p.offset + (textOf gs ++ t.text).length := by
      rw [hstop, Position.offset_advance, hstart, offset_stop, List.length_append, Nat.add_assoc]
    refine ⟨gs ++ ⟨.token t.kind, t.text⟩ :: more', (hrefilled.keep _).prepend gs, ?_, ?_⟩
    · rw [words_behind_gaps hlast hgap hts, ← hwords]
      simp [Word.ofToken]
    · rw [hstops] at hpatched
      simpa using hpatched.prepend
  | @fill s t newline more splits ts ws hs hfills _ ih =>
    intro p last ls hlast hts
    obtain ⟨front, back, last', rfl, hfront, hback, hend⟩ := withBreaks_eq_append hts
    obtain ⟨gs, mid, rfl, hgap, hstart, hstop, hmid⟩ := withBreaks_eq_cons hfront
    obtain ⟨final, hfinal, hstops⟩ := hfills.last
    obtain ⟨hbehind, rfl⟩ := hend final hfinal
    have hvacates : Vacates (⟨.token t.kind, t.text⟩ :: mid) := by
      refine hfills.vacates (some newline) ?_
      rw [words, ← hmid, map_withBreaks _ (by simp)]
      simp [Word.ofToken]
    obtain ⟨back', hrefilled, hwords, hpatched⟩ := ih (by simp [hbehind]) hback
    refine ⟨gs ++ ⟨.token .string, frozen s⟩ :: back', ?_, ?_, ?_⟩
    · rw [List.append_assoc]
      exact (Refilled.fill hvacates (hstring s hs) hrefilled).prepend gs
    · rw [words_behind_gaps hlast hgap hfront, ← hwords]
      simp [hbehind]
    · obtain ⟨_, _, _, heq, hfirst, -⟩ := hfills.first
      obtain ⟨rfl, -⟩ := Prod.mk.inj (List.cons.inj heq).1
      have hoffset := congrArg Position.offset hbehind
      rw [hstart] at hfirst
      simp only [offset_stop, textOf_append, List.length_append] at hoffset hfirst hpatched
      rw [List.append_assoc, textOf_append, textOf_append, textOf_append]
      exact .cons (textOf gs) _ (by omega) (by omega) (by rwa [Nat.add_assoc])

end Split

end Relocation
