import Relocation.Proofs.Front

/-!
# What leaves no trace

`Lexical.IsFiller` says of a text that it is a run of blanks, the end of a line or a comment,
complete where it stands.  It is what is read as a gap (`Reads.isFiller`), in every context alike
(`reads_of_isFiller`): whether a gap may move to another text behind it (`Reads.gap_move`), and what
looking ahead for a brace makes of it (`Reads.leadsToBrace`), is asked of fillers.
-/

namespace Relocation

namespace Lexical

/-- a run of blanks, the end of a line or a comment; nothing of the text behind it goes on with
it -/
inductive IsFiller (behind : Text) : Text → Prop
  | blanks {t : Text} (hne : t ≠ []) (hall : t.all isWhitespace = true)
    (hstop : Stops isWhitespace behind) : IsFiller behind t
  | lineEnd {c : CodePoint} (hc : c.isLineTerminator = true)
    (hpair : c = .char '\r' → behind.head? ≠ some (.char '\n')) : IsFiller behind [c]
  | lineEndPair : IsFiller behind [.char '\r', .char '\n']
  | lineComment {t : Text} (hall : t.all (fun c => !c.isLineTerminator) = true)
    (hstop : Stops (fun c => !c.isLineTerminator) behind) :
      IsFiller behind (.char '/' :: .char '/' :: t)
  | blockComment {t : Text} (hfirst : ¬ [.char '*', .char '/'] <:+: t) :
    IsFiller behind (.char '/' :: .char '*' :: (t ++ [.char '*', .char '/']))

variable {behind behind' t : Text}

/-! ## block comments -/

/-- a block comment goes on to the first end mark -/
theorem exists_of_commentLength? {t : Text} : ∀ {n : Nat}, commentLength? t = some n →
    ∃ body, t.take n = body ++ [.char '*', .char '/'] ∧ ¬ [.char '*', .char '/'] <:+: body := by
  fun_induction commentLength? t with
  | case1 => intro n h; cases h
  | case2 t =>
    intro n h
    cases h
    exact ⟨[], rfl, by simp⟩
  | case3 c t hend ih =>
    intro n h
    obtain ⟨m, hm, rfl⟩ := Option.map_eq_some_iff.1 h
    obtain ⟨body, hbody, hfirst⟩ := ih hm
    refine ⟨c :: body, by rw [List.take_succ_cons, hbody, List.cons_append], fun hin => ?_⟩
    rcases List.infix_cons_iff.1 hin with hpre | hin
    · -- an end mark at `c` would have been found there
      obtain ⟨rfl, s, hs⟩ := List.cons_prefix_cons.1 hpre
      refine hend (t.drop 1) rfl ?_
      have htake : t.take m = .char '/' :: (s ++ [.char '*', .char '/']) := by
        rw [hbody, ← hs]
        rfl
      cases t with
      | nil => simp at htake
      | cons d t =>
        cases m with
        | zero => simp at htake
        | succ m =>
          rw [List.take_succ_cons] at htake
          rw [(List.cons.inj htake).1]
          rfl
    · exact hfirst hin

/-- a block comment whose first end mark is its last two characters is measured up to there -/
theorem commentLength?_of_first {t : Text} (h : ¬ [.char '*', .char '/'] <:+: t) (r : Text) :
    commentLength? (t ++ .char '*' :: .char '/' :: r) = some (t.length + 2) := by
  induction t with
  | nil => rfl
  | cons c t ih =>
    have hne : ∀ r', c = .char '*' → t ++ .char '*' :: .char '/' :: r = .char '/' :: r' →
        False := by
      rintro r' rfl hslash
      cases t with
      | nil => exact absurd (List.cons.inj hslash).1 (by decide)
      | cons d t =>
        obtain rfl := (List.cons.inj hslash).1
        exact h ⟨[], t, rfl⟩
    have ih := ih fun hin => h (hin.trans (List.suffix_cons c t).isInfix)
    rw [List.cons_append, commentLength?.eq_3 _ _ hne, ih]
    rfl

/-! ## another text behind a filler -/

theorem IsFiller.exists_eq_cons (h : IsFiller behind t) : ∃ c r, t = c :: r := by
  cases h with
  | blanks hne => exact List.exists_cons_of_ne_nil hne
  | lineEnd => exact ⟨_, _, rfl⟩
  | lineEndPair => exact ⟨_, _, rfl⟩
  | lineComment => exact ⟨_, _, rfl⟩
  | blockComment => exact ⟨_, _, rfl⟩

/-- a filler is one with any text behind it that neither goes on with it nor cuts it short -/
theorem IsFiller.move (h : IsFiller behind t)
    (hblank : Stops isWhitespace behind → Stops isWhitespace behind')
    (hfeed : behind'.head? = some (.char '\n') → behind.head? = some (.char '\n') ∨
      t.head? ≠ some (.char '\r')) (hline : Stops (fun c => !c.isLineTerminator) behind →
    Stops (fun c => !c.isLineTerminator) behind') :
    IsFiller behind' t := by
  cases h with
  | blanks hne hall hstop => exact .blanks hne hall (hblank hstop)
  | lineEnd hc hpair =>
    refine .lineEnd hc fun hreturn hnext => ?_
    rcases hfeed hnext with hnext | hother
    · exact hpair hreturn hnext
    · exact hother (by rw [List.head?_cons, hreturn])
  | lineEndPair => exact .lineEndPair
  | lineComment hall hstop => exact .lineComment hall (hline hstop)
  | blockComment hfirst => exact .blockComment hfirst

/-- looking ahead for a brace passes over a filler or stops in it, whatever comes behind -/
theorem IsFiller.leadsToBrace (h : IsFiller behind t) :
    Lexical.leadsToBrace false (t ++ behind) =
      (bridges t && Lexical.leadsToBrace false behind) := by
  cases h with
  | blanks hne hall =>
    obtain ⟨c, t, rfl⟩ := List.exists_cons_of_ne_nil hne
    have hslash : c ≠ .char '/' := by
      rintro rfl
      exact absurd (List.all_eq_true.1 hall _ List.mem_cons_self) (by decide)
    have hbridges : bridges (c :: t) = (c :: t).all isBlank := by
      simp [bridges, Text.ofString, List.isPrefixOf, hslash.symm]
    rw [leadsToBrace_blanks hall, hbridges]
  | @lineEnd c hc =>
    simp only [CodePoint.isLineTerminator, Bool.or_eq_true, decide_eq_true_eq] at hc
    rw [List.singleton_append,
      leadsToBrace_stops (by rcases hc with ((rfl | rfl) | rfl) | rfl <;> decide)]
    rcases hc with ((rfl | rfl) | rfl) | rfl <;> rfl
  | lineEndPair => exact leadsToBrace_stops (by decide)
  | lineComment => rfl
  | @blockComment t hfirst =>
    let body : Text := t ++ [.char '*', .char '/']
    have hlength : commentLength? body = some body.length := by
      rw [commentLength?_of_first hfirst, List.length_append]
      rfl
    have hbridges : bridges (.char '/' :: .char '*' :: body) = !body.any isReturn := by
      simp [bridges, Text.ofString, List.isPrefixOf, isBlank, isReturn]
    rw [hbridges, ← leadsToBrace_comment hlength]
    rfl

end Lexical

namespace Token.Context

open Lexical

variable {ctx ctx' : Context} {c : CodePoint} {t rest rest' : Text}

/-! ## fillers are what is read as a gap -/

/-- what leaves no trace is a blank, a line end or a comment -/
theorem Reads.isFiller (h : ctx.Reads c (t ++ rest) .gap t.length) : IsFiller rest (c :: t) := by
  generalize hn : t.length = n at h
  generalize hr : t ++ rest = r at h
  generalize hf : Front.gap = f at h
  cases h with
  | blanks hc =>
    rw [← hr] at hn
    obtain ⟨hall, hstop⟩ := runLength_append.1 hn.symm
    exact .blanks (by simp) (by rw [List.all_cons, hc, hall]; rfl) hstop
  | terminator hc =>
    split at hn
    · rename_i hpair
      simp only [Bool.and_eq_true, decide_eq_true_eq] at hpair
      obtain ⟨d, rfl⟩ := List.length_eq_one_iff.1 hn
      obtain ⟨rfl, hd⟩ := hpair
      rw [← hr] at hd
      obtain rfl := Option.some.inj hd
      exact .lineEndPair
    · rename_i hpair
      obtain rfl := List.length_eq_zero_iff.1 hn
      refine .lineEnd hc fun hreturn hfeed => hpair ?_
      rw [← hr]
      simp [hreturn, hfeed]
  | line hc hslash =>
    subst hc
    rw [hslash] at hr
    obtain ⟨rfl, -⟩ | ⟨t, rfl, rfl⟩ := List.append_eq_cons_iff.1 hr
    · rw [List.length_nil] at hn
      omega
    · rw [List.length_cons, Nat.add_comm, Nat.add_left_cancel_iff] at hn
      obtain ⟨hall, hstop⟩ := runLength_append.1 hn.symm
      exact .lineComment hall hstop
  | comment hc hstar hlength =>
    subst hc
    rw [hstar] at hr
    obtain ⟨rfl, -⟩ | ⟨t, rfl, rfl⟩ := List.append_eq_cons_iff.1 hr
    · rw [List.length_nil] at hn
      omega
    · rw [List.length_cons, Nat.add_comm, Nat.add_left_cancel_iff] at hn
      obtain ⟨body, hbody, hfirst⟩ := exists_of_commentLength? hlength
      rw [← hn, List.take_left] at hbody
      rw [hbody]
      exact .blockComment hfirst
  | _ => cases hf

/-- a blank, a line end or a comment is read as a gap in every context -/
theorem reads_of_isFiller (h : IsFiller rest (c :: t)) (ctx : Context) :
    ctx.Reads c (t ++ rest) .gap t.length := by
  cases h with
  | blanks hne hall hstop =>
    rw [List.all_cons, Bool.and_eq_true] at hall
    rw [← runLength_append.2 ⟨hall.2, hstop⟩]
    exact .blanks hall.1
  | lineEnd hc hpair =>
    have hread : ctx.Reads c rest .gap _ := .terminator hc
    rwa [if_neg (by simpa using hpair)] at hread
  | lineEndPair => exact .terminator (by decide)
  | @lineComment t hall hstop =>
    have hread :
        ctx.Reads (.char '/') (.char '/' :: (t ++ rest)) .gap (1 + lineLength (t ++ rest)) :=
      .line rfl rfl
    rw [lineLength, runLength_append.2 ⟨hall, hstop⟩, Nat.add_comm] at hread
    exact hread
  | @blockComment t hfirst =>
    have hread :
        ctx.Reads (.char '/') (.char '*' :: (t ++ .char '*' :: .char '/' :: rest)) .gap
          (1 + (t.length + 2)) :=
      .comment rfl rfl (commentLength?_of_first hfirst rest)
    simpa [Nat.add_comm 1] using hread

/-- a gap is a gap in every context, and with any text behind it that neither goes on with it nor
cuts it short -/
theorem Reads.gap_move (h : Reads ctx c (t ++ rest) .gap t.length)
    (hblank : Stops isWhitespace rest → Stops isWhitespace rest')
    (hfeed : rest'.head? = some (.char '\n') → rest.head? = some (.char '\n') ∨ c ≠ .char '\r')
    (hline : Stops (fun c => !c.isLineTerminator) rest →
      Stops (fun c => !c.isLineTerminator) rest') : Reads ctx' c (t ++ rest') .gap t.length := by
  refine reads_of_isFiller (h.isFiller.move hblank (fun hnext => (hfeed hnext).imp_right
    fun hc => ?_) hline) ctx'
  simpa using hc

/-- looking ahead for a brace passes over a gap or stops in it, whatever comes behind the gap -/
theorem Reads.leadsToBrace (h : Reads ctx c (t ++ rest) .gap t.length) :
    Lexical.leadsToBrace false (c :: t ++ rest) =
      (bridges (c :: t) && Lexical.leadsToBrace false rest) :=
  h.isFiller.leadsToBrace

end Token.Context

end Relocation
