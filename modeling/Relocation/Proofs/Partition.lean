import Relocation.Proofs.Disjoint

/-!
# Cutting a text at its splits

Splits can be cut off one after the other if, and only if, they do not overlap
(`Plan.exists_ofSplits_iff`).  So a text without blocks in which no specifier is claimed twice has a
plan, unless a literal in it has no value (`Compile.isEscape_planOf`).
-/

namespace Relocation

open Split (Within Apart)

variable {e : Failure}

namespace Plan

variable {source : Text} {splits : List Split}

/-- splits that do not overlap are cut off from the last to the first, unless one of them has no
value -/
theorem exists_of_cutAll_error : ∀ {limit : Nat} {done : List (Substitution × Text)},
    (∀ s ∈ splits, s.Within 0 limit) → splits.Pairwise (fun a b => b.start ≤ a.start) →
    splits.Pairwise Apart → cutAll source limit done splits = .error e →
    ∃ s ∈ splits, Substitution.ofSplit source s = .error e := by
  induction splits with
  | nil =>
    intro limit done _ _ _ h
    cases h
  | cons s splits ih =>
    intro limit done hwithin hsorted hapart h
    obtain ⟨hs, hwithin⟩ := List.forall_mem_cons.1 hwithin
    obtain ⟨hbefore, hsorted⟩ := List.pairwise_cons.1 hsorted
    obtain ⟨hs', hapart⟩ := List.pairwise_cons.1 hapart
    have hrange : 0 ≤ s.start ∧ s.start ≤ s.stop ∧ s.stop ≤ limit := ⟨hs.start, hs.lt.le, hs.stop⟩
    rw [cutAll, if_pos hrange] at h
    have hlimit : ∀ t ∈ splits, t.Within 0 s.start.toNat := by
      intro t ht
      have htwithin := hwithin t ht
      have hstart := hbefore t ht
      have hlt := hs.lt
      have hlt' := htwithin.lt
      refine ⟨htwithin.kind, htwithin.start, hlt', ?_⟩
      -- the split does not begin behind `s`, so it ends before it
      rcases hs' t ht with hsep | hsep <;> omega
    rcases Except.bind_eq_error.1 h with h | ⟨_, -, h⟩
    · exact ⟨s, List.mem_cons_self, h⟩
    · obtain ⟨t, ht, h⟩ := ih hlimit hsorted hapart h
      exact ⟨t, List.mem_cons_of_mem _ ht, h⟩

/-- what is cut off has to end before what was cut off already -/
theorem pairwise_of_cutAll : ∀ {limit : Nat} {done : List (Substitution × Text)} {plan : Plan},
    cutAll source limit done splits = .ok plan → splits.Pairwise Apart ∧
    ∀ s ∈ splits, s.start ≤ s.stop ∧ s.stop ≤ limit := by
  induction splits with
  | nil => exact fun _ => ⟨.nil, fun s hs => by cases hs⟩
  | cons s splits ih =>
    intro limit done plan h
    rw [cutAll] at h
    split_ifs at h with hrange
    obtain ⟨_, -, h⟩ := Except.bind_eq_ok.1 h
    obtain ⟨hapart, hstop⟩ := ih h
    have hbefore : ∀ t ∈ splits, t.stop ≤ s.start := by
      intro t ht
      have := (hstop t ht).2
      omega
    refine ⟨List.pairwise_cons.2 ⟨fun t ht => .inr (hbefore t ht), hapart⟩,
      List.forall_mem_cons.2 ⟨hrange.2, fun t ht => ?_⟩⟩
    have := hbefore t ht
    have := hstop t ht
    omega

theorem exists_of_ofSplits_error (hwithin : ∀ s ∈ splits, s.Within 0 source.length)
    (hapart : splits.Pairwise Apart) (h : ofSplits source splits = .error e) :
    ∃ s ∈ splits, Substitution.ofSplit source s = .error e := by
  have hperm := List.mergeSort_perm splits fun a b => decide (b.start ≤ a.start)
  have hsorted : (splits.mergeSort fun a b => decide (b.start ≤ a.start)).Pairwise fun a b =>
      decide (b.start ≤ a.start) :=
    List.pairwise_mergeSort (fun a b c hab hbc => by simp only [decide_eq_true_eq] at *; omega)
      (fun a b => by simp only [Bool.or_eq_true, decide_eq_true_eq]; omega) splits
  obtain ⟨s, hs, h⟩ := exists_of_cutAll_error (fun s hs => hwithin s (hperm.mem_iff.1 hs))
    (hsorted.imp fun h => of_decide_eq_true h) (hperm.symm.pairwise hapart Apart.symm) h
  exact ⟨s, hperm.mem_iff.1 hs, h⟩

/-- there is a plan for splits that have values if, and only if, no two of them overlap -/
theorem exists_ofSplits_iff (hwithin : ∀ s ∈ splits, s.Within 0 source.length)
    (hvalue : ∀ s ∈ splits, ∃ substitution, Substitution.ofSplit source s = .ok substitution) :
    (∃ plan, ofSplits source splits = .ok plan) ↔ splits.Pairwise Apart := by
  constructor
  · rintro ⟨plan, hplan⟩
    exact (List.mergeSort_perm splits _).pairwise (pairwise_of_cutAll hplan).1 Apart.symm
  · intro hapart
    cases hplan : ofSplits source splits with
    | ok plan => exact ⟨plan, rfl⟩
    | error e =>
      obtain ⟨s, hs, herror⟩ := exists_of_ofSplits_error hwithin hapart hplan
      obtain ⟨substitution, hsubstitution⟩ := hvalue s hs
      rw [hsubstitution] at herror
      cases herror

theorem isEscape_ofSplits (hwithin : ∀ s ∈ splits, s.Within 0 source.length)
    (hapart : splits.Pairwise Apart) (h : ofSplits source splits = .error e) : e.IsEscape := by
  obtain ⟨s, hs, h⟩ := exists_of_ofSplits_error hwithin hapart h
  exact Substitution.isEscape_ofSplit (hwithin s hs).kind h

end Plan

namespace Compile

open Item

/-- a text without blocks whose specifiers are claimed once has a plan, unless one of them has no
value -/
theorem isEscape_planOf {t : Text} {items : List Item}
    (hread : Program.read t = .ok ⟨items, some t⟩)
    (hplaced : PlacedAll 0 t.length items) (hblocks : outerBlocksAll items = [])
    (honce : Split.ClaimsOnce items) (h : planOf t = .error e) : e.IsEscape := by
  rw [planOf, hread] at h
  rcases Except.bind_eq_error.1 h with h | ⟨program, hp, h⟩
  · cases h
  obtain rfl := Except.ok.inj hp
  rcases Except.bind_eq_error.1 h with h | ⟨splits, hsplits, h⟩
  · rcases Except.bind_eq_error.1 h with h | ⟨_, -, h⟩
    · exact Split.isEscape_scanFrom hblocks false 0 e h
    · cases h
  · obtain ⟨found, hfound, hsplits⟩ := Except.bind_eq_ok.1 hsplits
    obtain rfl := Except.ok.inj hsplits
    have hwithin := Split.within_scanFrom 0 hplaced false found hfound
    have hapart := (Split.pairwise_scanFrom_iff hplaced hfound).2 honce
    have hperm := List.mergeSort_perm found fun a b => decide (a.start ≤ b.start)
    exact Plan.isEscape_ofSplits (fun s hs => hwithin s (hperm.mem_iff.1 hs))
      (hperm.symm.pairwise hapart Split.Apart.symm) h

end Compile

end Relocation
