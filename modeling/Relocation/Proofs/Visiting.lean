import Relocation.Proofs.Freezing

/-!
# Splits in document order

Freezing visits the splits of a program in document order, each of them once: what it visits are the
sorted splits that scanning finds, if no two of these overlap (`Split.exists_freezes_sorted`).
-/

namespace Relocation

namespace Split

open Item (Spans SpansAll)
open Token (Run)

variable {known splits found : List Split} {s : Split} {i : Item} {r : List Item} {afterDot : Bool}

/-! ## everything that is found is visited -/

/-- a string is never part of a member of `import.meta`, so it is visited -/
theorem mem_visitFrom_of_string {text : Text} {m : Mark} {post : List Item}
    (hs : ofString? known m = some s) : ∀ {pre : List Item} (skip : Nat), skip ≤ pre.length →
    ∀ afterDot : Bool, s ∈ visitFrom known afterDot skip (pre ++ .leaf .string text m :: post) := by
  intro pre
  induction pre with
  | nil =>
    intro skip hskip afterDot
    obtain rfl : skip = 0 := Nat.le_zero.1 hskip
    have hnone : metaAt? afterDot (.leaf .string text m) post = none := rfl
    rw [List.nil_append, visitFrom_other hnone, visit, if_pos rfl, hs]
    exact List.mem_cons_self
  | cons j pre ih =>
    intro skip hskip afterDot
    rw [List.cons_append]
    cases skip with
    | succ skip => exact ih skip (Nat.le_of_succ_le_succ hskip) false
    | zero =>
      cases hmeta : metaAt? afterDot j (pre ++ .leaf .string text m :: post) with
      | none =>
        rw [visitFrom_other hmeta]
        exact List.mem_append_right _ (ih 0 (Nat.zero_le _) _)
      | some found =>
        obtain ⟨n, last⟩ := found
        obtain ⟨-, init, hinit, rfl, hstrings⟩ := metaMember?_eq_some (metaAt?_eq_some hmeta).2
        obtain ⟨more, rfl⟩ : ∃ more, pre = init ++ last :: more :=
          exists_of_middle hinit fun hmem => by
          cases hstrings _ hmem
        rw [visitFrom_member hmeta]
        exact List.mem_append_right _ (ih _ (by simp) false)

/-- so the specifier of a declaration is -/
theorem mem_visitFrom_of_claimed {own : List Split} (h : claimed afterDot i r = .ok own)
    (hs : s ∈ own) (hknown : s ∈ known) (afterDot' : Bool) : s ∈ visitFrom known afterDot' 0 r := by
  rcases claimed_eq_ok h with rfl | ⟨specifier, pre, post, rfl, rfl, hstring, -⟩
  · cases hs
  · obtain ⟨text, m, rfl⟩ := Item.exists_of_isString hstring
    obtain ⟨a, b, ha, hb, rfl⟩ := mem_between.1 hs
    obtain rfl := Option.some.inj (ha.symm.trans hb)
    have ha : m.range = some a := ha
    refine mem_visitFrom_of_string (m := m) ?_ 0 (Nat.zero_le _) afterDot'
    rw [ofString?, ha, Option.bind_some, if_pos hknown]

mutual
theorem mem_visitFrom_of_scanFrom :
    ∀ {items : List Item} (skip : Nat) (afterDot : Bool) (found : List Split),
    scanFrom afterDot skip items = .ok found → (∀ s ∈ found, s ∈ known) →
    ∀ s ∈ found, s ∈ visitFrom known afterDot skip items
  | [], _ => by
    intro afterDot found h _ s hs
    rw [scanFrom] at h
    obtain rfl := Except.ok.inj h
    cases hs
  | _ :: r, skip + 1 => by
    intro afterDot found h
    rw [scanFrom] at h
    rw [visitFrom]
    exact mem_visitFrom_of_scanFrom skip false found h
  | i :: r, 0 => by
    intro afterDot found h hknown s hs
    have ih :
        ∀ (skip : Nat) (afterDot : Bool) (found : List Split),
        scanFrom afterDot skip r = .ok found → (∀ s ∈ found, s ∈ known) →
        ∀ s ∈ found, s ∈ visitFrom known afterDot skip r :=
      fun skip => mem_visitFrom_of_scanFrom skip
    rcases scanFrom_cases h with ⟨n, last, rest, hmeta, hrest, rfl⟩ |
      ⟨own, inner, rest, hmeta, hown, hinner, hrest, rfl⟩
    · rw [visitFrom_member hmeta]
      rcases List.mem_append.1 hs with hs | hs
      · exact List.mem_append_left _ hs
      · exact List.mem_append_right _ (ih n false rest hrest (forall_append hknown).2 s hs)
    · rw [visitFrom_other hmeta]
      obtain ⟨hknown₁, hknown₂⟩ := forall_append hknown
      obtain ⟨hknown₃, hknown₄⟩ := forall_append hknown₁
      rcases List.mem_append.1 hs with hs | hs
      · rcases List.mem_append.1 hs with hs | hs
        · exact List.mem_append_right _ (mem_visitFrom_of_claimed hown hs (hknown₃ s hs) _)
        · exact List.mem_append_left _ (mem_visit_of_scanInside inner hinner hknown₄ s hs)
      · exact List.mem_append_right _ (ih 0 _ rest hrest hknown₂ s hs)

theorem mem_visit_of_scanInside : ∀ {i : Item} (found : List Split), scanInside i = .ok found →
    (∀ s ∈ found, s ∈ known) → ∀ s ∈ found, s ∈ visit known i
  | .leaf _ _ _ => by
    intro found h _ s hs
    rw [scanInside] at h
    obtain rfl := Except.ok.inj h
    cases hs
  | .group _ items _ _ => by
    intro found h
    rw [scanInside] at h
    rw [visit]
    exact mem_visitFrom_of_scanFrom 0 false found h
  | .template _ rest _ => by
    intro found h
    rw [scanInside] at h
    rw [visit]
    exact mem_visitRest_of_scanRest found h
  | .block _ _ _ => by
    intro found h
    rw [scanInside] at h
    cases h

theorem mem_visitRest_of_scanRest : ∀ {rest : List (List Item × Text)} (found : List Split),
    scanRest rest = .ok found → (∀ s ∈ found, s ∈ known) → ∀ s ∈ found, s ∈ visitRest known rest
  | [] => by
    intro found h _ s hs
    rw [scanRest] at h
    obtain rfl := Except.ok.inj h
    cases hs
  | (items, _) :: r => by
    intro found h hknown s hs
    obtain ⟨first, more, hfirst, hmore, rfl⟩ := scanRest_cons_eq_ok.1 h
    rw [visitRest]
    rcases List.mem_append.1 hs with hs | hs
    · exact List.mem_append_left _ (mem_visitFrom_of_scanFrom 0 false first hfirst
        (forall_append hknown).1 s hs)
    · exact List.mem_append_right _ (mem_visitRest_of_scanRest more hmore
        (forall_append hknown).2 s hs)
end

/-! ## and in order -/

/-- each split starts before the next -/
def Ascending (splits : List Split) : Prop := splits.Pairwise fun a b => a.start < b.start

theorem eq_of_ascending {a b : List Split} (ha : Ascending a) (hb : Ascending b)
    (h : ∀ s, s ∈ a ↔ s ∈ b) : a = b := by
  have nodup : ∀ {l : List Split}, Ascending l → l.Nodup := fun hl => hl.imp fun hlt heq => by
    rw [heq] at hlt
    exact lt_irrefl _ hlt
  have hperm : a.Perm b := (List.perm_ext_iff_of_nodup (nodup ha) (nodup hb)).2 h
  refine hperm.eq_of_pairwise (fun s t _ _ hst hts => ?_) ha hb
  exact absurd (hst.trans hts) (lt_irrefl _)

/-- splits are visited in the order of the tokens they take the place of -/
theorem Freezes.ascending {frozen : Split → Text} {ts : List (Token × Bool)} {ws : List Word}
    (h : Freezes frozen known splits ts ws) :
    ∀ {lo hi : Nat}, Run lo hi ts → Ascending splits ∧ ∀ s ∈ splits, lo ≤ s.start := by
  induction h with
  | nil => exact fun _ => ⟨.nil, fun s hs => by cases hs⟩
  | keep t _ ih =>
    intro lo hi hrun
    obtain ⟨h₁, h₂, h₃⟩ := hrun
    obtain ⟨hsorted, hlo⟩ := ih h₃
    exact ⟨hsorted, fun s hs => by have := hlo s hs; omega⟩
  | fill _ hfills _ ih =>
    intro lo hi hrun
    obtain ⟨mid, hseg, hrest⟩ := Token.exists_run_of_append hrun
    obtain ⟨h₁, h₂, h₃⟩ := hseg
    have hmid := h₃.le
    obtain ⟨_, _, _, heq, hstart, -⟩ := hfills.first
    obtain ⟨heq, -⟩ := List.cons.inj heq
    obtain ⟨rfl, -⟩ := Prod.mk.inj heq
    obtain ⟨hsorted, hlo⟩ := ih hrest
    refine ⟨List.pairwise_cons.2 ⟨fun s hs => ?_, hsorted⟩, fun s hs => ?_⟩
    · have := hlo s hs
      omega
    · rcases List.mem_cons.1 hs with rfl | hs
      · omega
      · have := hlo s hs
        omega

theorem Freezes.mem {frozen : Split → Text} {ts : List (Token × Bool)} {ws : List Word}
    (h : Freezes frozen known splits ts ws) : ∀ s ∈ splits, s ∈ known := by
  induction h with
  | nil => exact fun s hs => by cases hs
  | keep _ _ ih => exact ih
  | fill hs _ _ ih => exact List.forall_mem_cons.2 ⟨hs, ih⟩

theorem mem_sorted : s ∈ sorted splits ↔ s ∈ splits := (List.mergeSort_perm _ _).mem_iff

/-- sorted splits that do not overlap start one after the other -/
theorem ascending_sorted {hi : Nat} (hwithin : ∀ s ∈ splits, s.Within 0 hi)
    (hapart : (sorted splits).Pairwise Apart) : Ascending (sorted splits) := by
  have hsorted : (sorted splits).Pairwise fun a b => decide (a.start ≤ b.start) :=
    List.pairwise_mergeSort (fun a b c hab hbc => by simp only [decide_eq_true_eq] at *; omega)
      (fun a b => by simp only [Bool.or_eq_true, decide_eq_true_eq]; omega) splits
  refine (hsorted.and hapart).imp_of_mem fun {a b} ha hb h => ?_
  have hle := of_decide_eq_true h.1
  have hlt := (hwithin a (mem_sorted.1 ha)).lt
  have hlt' := (hwithin b (mem_sorted.1 hb)).lt
  rcases h.2 with h | h <;> omega

/-- splits that are found in the order of their starts are the splits of the text -/
theorem exists_read_splits {t : Text}
    (h : (Program.read t >>= fun p => scanFrom false 0 p.items) = .ok splits)
    (hordered : splits.Pairwise fun a b => a.start ≤ b.start) : ∃ p, Program.read t = .ok p ∧
    p.splits = .ok splits := by
  obtain ⟨p, hread, hfound⟩ := Except.bind_eq_ok.1 h
  refine ⟨p, hread, ?_⟩
  rw [Program.splits, (Program.cuts_of_read hread).1, hfound]
  exact congrArg Except.ok (List.mergeSort_of_pairwise (hordered.imp decide_eq_true))

/-- the splits that are visited are the ones that are found, in their order -/
theorem exists_freezes_sorted (frozen : Split → Text) {items : List Item}
    {ts : List (Token × Bool)} {hi : Nat} (hspans : SpansAll items ts) (hrun : Run 0 hi ts)
    (hfound : scanFrom false 0 items = .ok found)
    (hready : ∀ t ∈ ts, Ready (sorted found) t) (hapart : (sorted found).Pairwise Apart) :
    ∃ ws, Freezes frozen (sorted found) (sorted found) ts ws ∧
      Item.SpellsAll (freezeFrom frozen (sorted found) false 0 items) ws := by
  have hknown : ∀ s ∈ found, s ∈ sorted found := fun s hs => mem_sorted.2 hs
  obtain ⟨ws, hws, hspells⟩ := exists_freezes frozen 0 hspans hready false found hfound hknown
  have hwithin := within_scanFrom 0 (Item.placedAll_of_spansAll hspans 0 hi hrun) false found hfound
  have heq : visitFrom (sorted found) false 0 items = sorted found :=
    eq_of_ascending (hws.ascending hrun).1 (ascending_sorted hwithin hapart) fun s =>
      ⟨hws.mem s, fun hs => mem_visitFrom_of_scanFrom 0 false found hfound hknown s
        (mem_sorted.1 hs)⟩
  rw [heq] at hws
  exact ⟨ws, hws, hspells⟩

end Split

end Relocation
