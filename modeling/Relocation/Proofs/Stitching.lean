import Relocation.Proofs.Partition
import Relocation.Proofs.Patching

/-!
# Plans of splits in any order

Splits are cut off from the last to the first, each from what is left of the text
(`Plan.cutAll_eq_ok`).  `Plan.ofSplits_exact`: there is a plan if, and only if, the splits lie in
the text and do not overlap; the order they come in does not matter, and the segments of the plan
with the slices between them are the text again.
-/

namespace Relocation

namespace Split

/-- a split that may be cut off from a text: its kind is one that scanning finds, it is not empty,
and if it is a specifier inside the text, the specifier has a value -/
structure Cuttable (source : Text) (s : Split) : Prop where
  kind : s.kind = .metaUrl ∨ s.kind = .staticImport
  lt : s.start < s.stop
  value : s.kind = .staticImport → 0 ≤ s.start → s.stop ≤ source.length →
    ∃ value, Literal.value (s.slice source) = .ok value

/-- the substitution has the kind of the split, and if the split is a specifier, its value -/
structure StandsFor (source : Text) (s : Split) (substitution : Substitution) : Prop where
  kind : substitution.kind = s.kind
  value : s.kind = .staticImport →
    ∃ value, Literal.value (s.slice source) = .ok value ∧ substitution.specifier? = some value

variable {source : Text} {s : Split} {splits ordered : List Split} {substitution : Substitution}

theorem standsFor_of_ofSplit (h : Substitution.ofSplit source s = .ok substitution) :
    s.StandsFor source substitution := by
  unfold Substitution.ofSplit at h
  cases hkind : s.kind with
  | metaUrl =>
    rw [hkind] at h
    obtain rfl := Except.ok.inj h
    exact ⟨hkind.symm, fun h => by rw [hkind] at h; cases h⟩
  | staticImport =>
    rw [hkind] at h
    obtain ⟨value, hvalue, h⟩ := Except.bind_eq_ok.1 h
    obtain rfl := Except.ok.inj h
    exact ⟨hkind.symm, fun _ => ⟨value, hvalue, rfl⟩⟩
  | other label =>
    rw [hkind] at h
    cases h

theorem Cuttable.exists_ofSplit (h : s.Cuttable source) (hstart : 0 ≤ s.start)
    (hstop : s.stop ≤ source.length) :
    ∃ substitution, Substitution.ofSplit source s = .ok substitution := by
  rcases h.kind with hkind | hkind
  · exact ⟨.metaUrl, by rw [Substitution.ofSplit, hkind]⟩
  · obtain ⟨value, hvalue⟩ := h.value hkind hstart hstop
    refine ⟨.staticImport (some value), ?_⟩
    rw [slice] at hvalue
    rw [Substitution.ofSplit, hkind]
    simp only [hvalue]
    rfl

theorem Cuttable.within (h : s.Cuttable source) (hstart : 0 ≤ s.start)
    (hstop : s.stop ≤ source.length) : s.Within 0 source.length where
  kind := fun label hlabel => by
    rcases h.kind with hkind | hkind <;> rw [hlabel] at hkind <;> cases hkind
  start := hstart
  lt := h.lt
  stop := hstop

/-- what the text holds up to the end of a split is what it holds before the split, and the slice -/
theorem take_append_slice (source : Text) (hle : s.start ≤ s.stop) :
    source.take s.start.toNat ++ s.slice source = source.take s.stop.toNat := by
  have hmin : min s.start.toNat s.stop.toNat = s.start.toNat := by omega
  conv_rhs => rw [← List.take_append_drop s.start.toNat (source.take s.stop.toNat),
    List.take_take, hmin]
  rfl

end Split

namespace Plan

open Split (Apart Ascending Cuttable StandsFor)

variable {source : Text} {splits : List Split} {limit : Nat} {done : List (Substitution × Text)}
  {plan : Plan} {e : Failure}

/-- segments and slices in turn, a segment first and last -/
def interleaved (literals slices : List Text) : Text :=
  literals.headD [] ++ (List.zipWith (· ++ ·) slices literals.tail).flatten

/-- What is cut off comes in front of what was cut off already.  The segment that is left and what
was cut off behind it are the text up to the limit. -/
theorem cutAll_eq_ok (h : cutAll source limit done splits = .ok plan) :
    ∃ cut, plan.rest = cut ++ done ∧
      List.Forall₂ (fun s part => Substitution.ofSplit source s = .ok part.1) splits.reverse cut ∧
      interleaved (plan.first :: cut.map (·.2))
        (splits.reverse.map (·.slice source)) = source.take limit := by
  induction splits generalizing limit done with
  | nil =>
    obtain rfl := Except.ok.inj h
    exact ⟨[], rfl, .nil, by simp [interleaved]⟩
  | cons s splits ih =>
    rw [cutAll] at h
    split_ifs at h with hrange
    obtain ⟨substitution, hsubstitution, h⟩ := Except.bind_eq_ok.1 h
    obtain ⟨cut, hrest, hcut, htext⟩ := ih h
    have hlength : (splits.reverse.map (·.slice source)).length = (cut.map (·.2)).length := by
      rw [List.length_map, List.length_map, hcut.length_eq]
    refine ⟨cut ++ [(substitution, (source.take limit).drop s.stop.toNat)], ?_, ?_, ?_⟩
    · rw [hrest, List.append_assoc, List.singleton_append]
    · rw [List.reverse_cons]
      exact List.rel_append hcut (.cons hsubstitution .nil)
    · have hmin : min s.stop.toNat limit = s.stop.toNat := by omega
      calc
        _ = interleaved (plan.first :: cut.map (·.2)) (splits.reverse.map (·.slice source)) ++
              (s.slice source ++ (source.take limit).drop s.stop.toNat) := by
          simp only [interleaved, List.reverse_cons, List.map_append, List.map_cons, List.map_nil,
            List.headD_cons, List.tail_cons, List.zipWith_append hlength, List.zipWith_cons_cons,
            List.zipWith_nil_left, List.flatten_append, List.flatten_cons, List.flatten_nil,
            List.append_nil, List.append_assoc]
        _ = source.take s.stop.toNat ++ (source.take limit).drop s.stop.toNat := by
          rw [htext, ← List.append_assoc, Split.take_append_slice source hrange.2.1]
        _ = source.take limit := by
          conv_rhs => rw [← List.take_append_drop s.stop.toNat (source.take limit)]
          rw [List.take_take, hmin]

theorem start_of_cutAll (h : cutAll source limit done splits = .ok plan) :
    ∀ s ∈ splits, 0 ≤ s.start := by
  induction splits generalizing limit done with
  | nil =>
    intro s hs
    cases hs
  | cons s splits ih =>
    rw [cutAll] at h
    split_ifs at h with hrange
    obtain ⟨_, -, h⟩ := Except.bind_eq_ok.1 h
    exact List.forall_mem_cons.2 ⟨hrange.1, ih h⟩

/-- where every split inside the text has a value, cutting fails only at a split that overlaps
another or leaves the text -/
theorem cutAll_eq_error (hlimit : limit ≤ source.length) (hsplits : ∀ s ∈ splits, s.Cuttable source)
    (h : cutAll source limit done splits = .error e) :
    ∃ s ∈ splits, e = .inconsistent (.misplacedSplit s) := by
  induction splits generalizing limit done with
  | nil => cases h
  | cons s splits ih =>
    obtain ⟨hs, hsplits⟩ := List.forall_mem_cons.1 hsplits
    rw [cutAll] at h
    split_ifs at h with hrange
    · obtain ⟨substitution, hsubstitution⟩ := hs.exists_ofSplit hrange.1 (by omega)
      rcases Except.bind_eq_error.1 h with h | ⟨_, -, h⟩
      · rw [hsubstitution] at h
        cases h
      · obtain ⟨t, ht, rfl⟩ := ih (by omega) hsplits h
        exact ⟨t, List.mem_cons_of_mem s ht, rfl⟩
    · obtain rfl := Except.error.inj h
      exact ⟨s, List.mem_cons_self, rfl⟩

/-- there is a plan if, and only if, the splits lie in the text and do not overlap -/
theorem exists_ofSplits_iff_of_cuttable (hsplits : ∀ s ∈ splits, s.Cuttable source) :
    (∃ plan, ofSplits source splits = .ok plan) ↔
      (∀ s ∈ splits, 0 ≤ s.start ∧ s.stop ≤ source.length) ∧ splits.Pairwise Apart := by
  have hperm := List.mergeSort_perm splits fun a b => decide (b.start ≤ a.start)
  constructor
  · rintro ⟨plan, hplan⟩
    obtain ⟨hapart, hstop⟩ := pairwise_of_cutAll hplan
    refine ⟨fun s hs => ?_, hperm.pairwise hapart Apart.symm⟩
    have hmem := hperm.mem_iff.2 hs
    exact ⟨start_of_cutAll hplan s hmem, (hstop s hmem).2⟩
  · rintro ⟨hrange, hapart⟩
    apply (exists_ofSplits_iff (fun s hs => ?_) fun s hs => ?_).2 hapart
    · exact (hsplits s hs).within (hrange s hs).1 (hrange s hs).2
    · exact (hsplits s hs).exists_ofSplit (hrange s hs).1 (hrange s hs).2

/-- Splits that have values have a plan if, and only if, they lie in the text and do not overlap;
otherwise one of them is reported.  The plan does not depend on the order they come in.  Its
segments, with the slices of the splits in document order between them, are the text, and its
substitutions stand for the splits in document order. -/
theorem ofSplits_exact (hsplits : ∀ s ∈ splits, s.Cuttable source) :
    ((∃ plan, ofSplits source splits = .ok plan) ↔
      (∀ s ∈ splits, 0 ≤ s.start ∧ s.stop ≤ source.length) ∧ splits.Pairwise Apart) ∧
    (∀ e, ofSplits source splits = .error e → ∃ s ∈ splits, e = .inconsistent (.misplacedSplit s)) ∧
    ∀ plan, ofSplits source splits = .ok plan →
      (∀ other, splits.Perm other → ofSplits source other = .ok plan) ∧
      plan.literals.length = plan.substitutions.length + 1 ∧
      ∃ ordered, splits.Perm ordered ∧ Ascending ordered ∧
        interleaved plan.literals (ordered.map (·.slice source)) = source ∧
        List.Forall₂ (·.StandsFor source ·) ordered plan.substitutions := by
  have hexists := exists_ofSplits_iff_of_cuttable hsplits
  refine ⟨hexists, fun e he => ?_, fun plan hplan => ?_⟩
  · have hperm := List.mergeSort_perm splits fun a b => decide (b.start ≤ a.start)
    obtain ⟨s, hs, rfl⟩ := cutAll_eq_error le_rfl (fun s hs => hsplits s (hperm.mem_iff.1 hs)) he
    exact ⟨s, hperm.mem_iff.1 hs, rfl⟩
  · obtain ⟨hrange, hapart⟩ := hexists.1 ⟨plan, hplan⟩
    have hperm : splits.Perm (Split.sorted splits) := (List.mergeSort_perm splits _).symm
    have hascending : Ascending (Split.sorted splits) :=
      Split.ascending_sorted (fun s hs => (hsplits s hs).within (hrange s hs).1 (hrange s hs).2)
        (hperm.pairwise hapart Apart.symm)
    have hcut := hplan
    rw [ofSplits, mergeSort_of_perm hperm hascending] at hcut
    refine ⟨fun other hother => ?_, by simp [literals, substitutions], Split.sorted splits, hperm,
      hascending, ?_⟩
    · rw [ofSplits, mergeSort_of_perm (hother.symm.trans hperm) hascending, hcut]
    · obtain ⟨cut, hrest, hsubstitutions, htext⟩ := cutAll_eq_ok hcut
      rw [List.append_nil] at hrest
      rw [List.reverse_reverse] at hsubstitutions htext
      rw [literals, substitutions, hrest]
      refine ⟨htext.trans (List.take_length ..), List.forall₂_map_right_iff.2 ?_⟩
      exact hsubstitutions.imp fun s part h => Split.standsFor_of_ofSplit h

/-- a specifier and a member of `import.meta` side by side, the later one first -/
def adjacent : List Split := [⟨.metaUrl, 11, 26⟩, ⟨.staticImport, 6, 11⟩]

theorem ofSplits_exact_adjacent :
    (∀ s ∈ adjacent, s.Cuttable (Text.ofString "import'./a'import.meta.url")) ∧
    ∃ plan, ofSplits (Text.ofString "import'./a'import.meta.url") adjacent = .ok plan ∧
      ofSplits (Text.ofString "import'./a'import.meta.url") adjacent.reverse = .ok plan ∧
      plan.literals.length = plan.substitutions.length + 1 ∧
      ∃ ordered, adjacent.Perm ordered ∧ Ascending ordered ∧
        interleaved plan.literals
            (ordered.map (·.slice (Text.ofString "import'./a'import.meta.url"))) =
          Text.ofString "import'./a'import.meta.url" ∧
        List.Forall₂ (·.StandsFor (Text.ofString "import'./a'import.meta.url") ·) ordered
          plan.substitutions := by
  have hvalue :
      Literal.value
        (Split.slice ⟨.staticImport, 6, 11⟩ (Text.ofString "import'./a'import.meta.url")) =
      .ok (Text.ofString "./a") := by decide +kernel
  have hsplits : ∀ s ∈ adjacent, s.Cuttable (Text.ofString "import'./a'import.meta.url") := by
    rw [adjacent, List.forall_mem_cons, List.forall_mem_singleton]
    constructor
    · exact ⟨.inl rfl, by decide, fun h => by cases h⟩
    · exact ⟨.inr rfl, by decide, fun _ _ _ => ⟨_, hvalue⟩⟩
  obtain ⟨hexists, -, hplan⟩ := ofSplits_exact hsplits
  obtain ⟨plan, h⟩ := hexists.2 ⟨by decide, by simp [adjacent, Apart]⟩
  obtain ⟨hperm, hlength, hordered⟩ := hplan plan h
  exact ⟨hsplits, plan, h, hperm _ (List.reverse_perm _).symm, hlength, hordered⟩

end Plan

end Relocation
