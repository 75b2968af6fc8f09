import Relocation.Proofs.Walks

/-!
# Overwriting files

Writing a file changes what stands at one place only, and there it puts a file where a file or
nothing was.  So every path that could be written to can be written to still, at the same place
(`FileTree.Overwrites.writeTarget`), and what is read there is what was written last
(`FileTree.read_of_writeTarget`).  Making directories, also in part, keeps all files and links
(`FileTree.Grows`).
-/

namespace Relocation.FileTree

variable {t t' t'' new : FileTree} {l l' dir here cwd : Location} {name target : Text}
  {names : List Text} {entries : List (Text × FileTree)} {bytes : List UInt8} {aim : Aim} {p : Path}
  {s : Spot} {r : Spot ⊕ Detour}

/-! ## putting something in a directory -/

theorem child?_putEntry {name' : Text} :
    (directory (putEntry name new entries)).child? name' =
      if name' = name then some new else (directory entries).child? name' := by
  simp only [child?]
  induction entries with
  | nil =>
    by_cases h : name' = name
    · simp [putEntry, h]
    · simp [putEntry, h, Ne.symm h]
  | cons e r ih =>
    rw [putEntry]
    split
    · rename_i he
      by_cases h : name' = name
      · simp [h]
      · simp [h, Ne.symm h, he]
    · rename_i he
      by_cases h : e.1 = name'
      · have hne : name' ≠ name := fun heq => he (h.trans heq)
        simp [h, hne]
      · simpa [h] using ih

theorem get?_put_cons {x y : Text} :
    ((directory entries).put new (x :: l)).get? (y :: l') =
      if y = x then ((((directory entries).child? x).getD (directory [])).put new l).get? l'
      else (directory entries).get? (y :: l') := by
  rw [put, get?, child?_putEntry]
  by_cases h : y = x
  · rw [if_pos h, if_pos h]
  · rw [if_neg h, if_neg h, get?]

theorem exists_child? {x : Text} (h : t.isDirectoryAt (x :: l) = true) :
    ∃ entries c, t = directory entries ∧ t.child? x = some c ∧ c.isDirectoryAt l = true := by
  rw [isDirectoryAt, get?] at h
  cases hc : t.child? x with
  | none =>
    rw [hc] at h
    cases h
  | some c =>
    rw [hc] at h
    cases t with
    | directory entries => exact ⟨entries, c, rfl, rfl, h⟩
    | _ => cases hc

theorem get?_put_append (hdir : t.isDirectoryAt dir = true) :
    (t.put new (dir ++ [name])).get? (dir ++ [name] ++ l) = new.get? l := by
  induction dir generalizing t with
  | nil =>
    cases t with
    | directory entries =>
      simp only [List.nil_append, List.cons_append]
      rw [get?_put_cons, if_pos rfl, put]
    | _ => cases hdir
  | cons x dir ih =>
    obtain ⟨entries, c, rfl, hc, hcdir⟩ := exists_child? hdir
    rw [List.cons_append, List.cons_append, get?_put_cons, if_pos rfl, hc]
    exact ih hcdir

theorem bareAt?_put_of_not_below (hdir : t.isDirectoryAt dir = true) (hl : ¬ dir ++ [name] <+: l) :
    (t.put new (dir ++ [name])).bareAt? l = t.bareAt? l := by
  induction dir generalizing t l with
  | nil =>
    cases t with
    | directory entries =>
      cases l with
      | nil => rfl
      | cons y l =>
        have hy : y ≠ name := fun h => hl (by simp [h])
        rw [List.nil_append, bareAt?, get?_put_cons, if_neg hy]
        rfl
    | _ => cases hdir
  | cons x dir ih =>
    obtain ⟨entries, c, rfl, hc, hcdir⟩ := exists_child? hdir
    cases l with
    | nil => rfl
    | cons y l =>
      rw [List.cons_append, bareAt?, get?_put_cons]
      split
      · rename_i hy
        subst hy
        rw [hc, bareAt?, get?, hc]
        exact ih hcdir fun h => hl (List.cons_prefix_cons.2 ⟨rfl, h⟩)
      · rfl

/-- may a file be made or overwritten at a place? -/
def Free (t : FileTree) (l : Location) : Prop :=
  ∃ dir name, l = dir ++ [name] ∧ t.isDirectoryAt dir = true ∧
    (t.get? l = none ∨ ∃ bytes, t.get? l = some (.file bytes))

theorem bareAt?_put_file (h : t.Free l) :
    (t.put (.file bytes) l).bareAt? l' = if l' = l then some (.file bytes) else t.bareAt? l' := by
  obtain ⟨dir, name, rfl, hdir, hfree⟩ := h
  by_cases hprefix : dir ++ [name] <+: l'
  · obtain ⟨rest, rfl⟩ := hprefix
    rw [bareAt?, get?_put_append hdir]
    cases rest with
    | nil => simp [get?, bare]
    | cons x rest =>
      have hold : t.get? (dir ++ [name] ++ x :: rest) = none := by
        rw [get?_append]
        rcases hfree with hfree | ⟨b, hfree⟩ <;> rw [hfree] <;> rfl
      rw [if_neg (by simp), bareAt?_eq_none.2 hold]
      rfl
  · rw [bareAt?_put_of_not_below hdir hprefix, if_neg]
    rintro rfl
    exact hprefix List.prefix_rfl

/-! ## where paths lead -/

/-- the place of a spot -/
def Spot.place : Spot → Location
  | .present l => l
  | .absent l => l

theorem writeTarget_of_follow (h : t.follow .write cwd p = .ok s)
    (hs : t.isDirectoryAt s.place = false) : t.writeTarget cwd p = .ok s.place := by
  unfold writeTarget
  rw [h]
  cases s with
  | present l => exact if_neg (by simpa [Spot.place] using hs)
  | absent l => rfl

theorem follow_of_writeTarget (hcwd : t.isDirectoryAt cwd = true)
    (h : t.writeTarget cwd p = .ok l) : ∃ s, t.follow .write cwd p = .ok s ∧ s.place = l ∧
    t.isDirectoryAt l = false := by
  unfold writeTarget at h
  split at h
  · cases h
  · rename_i l' hs
    obtain rfl := Except.ok.inj h
    obtain ⟨dir, name, -, -, hnone⟩ := follow_holds hcwd hs
    exact ⟨_, hs, rfl, by rw [isDirectoryAt, hnone]⟩
  · rename_i l' hs
    split at h
    · cases h
    · rename_i hdir
      obtain rfl := Except.ok.inj h
      exact ⟨_, hs, rfl, eq_false_of_ne_true hdir⟩

theorem free_of_writeTarget (hcwd : t.isDirectoryAt cwd = true) (h : t.writeTarget cwd p = .ok l) :
    t.Free l := by
  obtain ⟨s, hs, rfl, hdir⟩ := follow_of_writeTarget hcwd h
  have hholds := follow_holds hcwd hs
  cases s with
  | absent l =>
    obtain ⟨dir, name, hl, hdir', hnone⟩ := hholds
    exact ⟨dir, name, hl, hdir', .inl hnone⟩
  | present l =>
    obtain ⟨c, hc, hlink⟩ := hholds
    rcases List.eq_nil_or_concat l with rfl | ⟨dir, name, rfl⟩
    · rw [Spot.place, isDirectoryAt_nil hcwd] at hdir
      cases hdir
    rw [List.concat_eq_append] at hc hdir ⊢
    cases c with
    | file bytes =>
      have hfile := bareAt?_eq_file.1 hc
      exact ⟨dir, name, rfl, isDirectoryAt_of_get? hfile, .inr ⟨bytes, hfile⟩⟩
    | link target => exact absurd rfl (hlink target)
    | directory entries =>
      rw [Spot.place, isDirectoryAt_of_bareAt? hc] at hdir
      cases hdir

/-! ## what is written is read -/

theorem read_of_writeTarget (hcwd : t.isDirectoryAt cwd = true) (h : t.writeTarget cwd p = .ok l)
    (hl : t.get? l = some (.file bytes)) : t.read cwd p = .ok bytes := by
  obtain ⟨s, hs, rfl, -⟩ := follow_of_writeTarget hcwd h
  cases s with
  | absent l =>
    obtain ⟨-, -, -, -, hnone⟩ := follow_holds hcwd hs
    rw [Spot.place, hnone] at hl
    cases hl
  | present l =>
    have hlookup : t.lookup cwd p = .ok (.file bytes) := by
      rw [lookup, follow_find hs]
      simp only
      rw [show t.get? l = some (.file bytes) from hl]
    rw [read, hlookup]

/-! ## writing does not change where paths lead -/

/-- a file is put where a file may be made, and all else stays -/
def Overwrites (t t' : FileTree) (l : Location) : Prop :=
  t.Free l ∧ (∃ bytes, t'.bareAt? l = some (.file bytes)) ∧ ∀ l', l' ≠ l →
    t'.bareAt? l' = t.bareAt? l'

theorem overwrites_put (h : t.Free l) : t.Overwrites (t.put (.file bytes) l) l := by
  refine ⟨h, ⟨bytes, ?_⟩, fun l' hl' => ?_⟩
  · rw [bareAt?_put_file h, if_pos rfl]
  · rw [bareAt?_put_file h, if_neg hl']

theorem Overwrites.isDirectoryAt (h : t.Overwrites t' l) :
    t'.isDirectoryAt l' = t.isDirectoryAt l' := by
  obtain ⟨⟨dir, name, -, -, hfree⟩, ⟨bytes, hnew⟩, hsame⟩ := h
  by_cases hl : l' = l
  · subst hl
    rw [FileTree.isDirectoryAt, FileTree.isDirectoryAt, bareAt?_eq_file.1 hnew]
    rcases hfree with hfree | ⟨b, hfree⟩ <;> rw [hfree] <;> rfl
  · exact isDirectoryAt_congr (hsame l' hl)

theorem Overwrites.stands (h : t.Overwrites t' l) (hl : t.Stands l') : t'.Stands l' := by
  by_cases heq : l' = l
  · obtain ⟨bytes, hnew⟩ := h.2.1
    exact heq ▸ stands_of_file hnew
  · exact (stands_congr (h.2.2 l' heq)).2 hl

theorem Overwrites.bareAt?_link (h : t.Overwrites t' l) (hl : t.bareAt? l' = some (.link target)) :
    t'.bareAt? l' = some (.link target) := by
  obtain ⟨⟨dir, name, -, -, hfree⟩, -, hsame⟩ := h
  rw [hsame l', hl]
  rintro rfl
  rw [bareAt?_eq_link] at hl
  rcases hfree with hfree | ⟨bytes, hfree⟩ <;> cases hl.symm.trans hfree

/-- the same walk, up to whether something is at its end already -/
theorem Overwrites.walks (h : t.Overwrites t' l) (hr : t.Walks aim here names r) :
    ∃ r', t'.Walks aim here names r' ∧ r'.map Spot.place id = r.map Spot.place id := by
  have hasks' : ∀ {here name names}, t.Asks aim here name names → t'.Asks aim here name names :=
    fun hasks => ⟨h.isDirectoryAt.trans hasks.directory, hasks.entry, hasks.ending, hasks.short⟩
  induction hr with
  | done => exact ⟨_, .done, rfl⟩
  | idle hdir hidle _ ih =>
    obtain ⟨r', hr', hplace⟩ := ih
    exact ⟨r', .idle (h.isDirectoryAt.trans hdir) hidle hr', hplace⟩
  | up hdir _ ih =>
    obtain ⟨r', hr', hplace⟩ := ih
    exact ⟨r', .up (h.isDirectoryAt.trans hdir) hr', hplace⟩
  | @missing here name hasks hnone =>
    by_cases hl : here ++ [name] = l
    · obtain ⟨bytes, hnew⟩ := h.2.1
      exact ⟨_, .enter (hasks' hasks) (hl ▸ stands_of_file hnew) .done, rfl⟩
    · exact ⟨_, .missing (hasks' hasks) ((h.2.2 _ hl).trans hnone), rfl⟩
  | link hasks hlink => exact ⟨_, .link (hasks' hasks) (h.bareAt?_link hlink), rfl⟩
  | enter hasks hstands _ ih =>
    obtain ⟨r', hr', hplace⟩ := ih
    exact ⟨r', .enter (hasks' hasks) (h.stands hstands) hr', hplace⟩

theorem Overwrites.walks_spot (h : t.Overwrites t' l) (hs : t.Walks aim here names (.inl s)) :
    ∃ s', t'.Walks aim here names (.inl s') ∧ s'.place = s.place := by
  obtain ⟨r', hr', hplace⟩ := h.walks hs
  cases r' with
  | inl s' => exact ⟨s', hr', Sum.inl.inj hplace⟩
  | inr d => cases hplace

theorem Overwrites.walks_detour {d : Detour} (h : t.Overwrites t' l)
    (hd : t.Walks aim here names (.inr d)) : t'.Walks aim here names (.inr d) := by
  obtain ⟨r', hr', hplace⟩ := h.walks hd
  cases r' with
  | inl s' => cases hplace
  | inr d' => rwa [show d' = d from Sum.inr.inj hplace] at hr'

theorem Overwrites.follow (h : t.Overwrites t' l) (hs : t.follow aim cwd p = .ok s) :
    ∃ s', t'.follow aim cwd p = .ok s' ∧ s'.place = s.place := by
  obtain ⟨hshort, hs⟩ := follow_eq_ok.1 hs
  simp only [follow_eq_ok, hshort, true_and]
  refine followNames_induction
    (motive := fun links here names => ∃ s', t'.followNames aim links here names = .ok s' ∧
      s'.place = s.place)
    (fun hs => ?_) (fun hd ⟨s', hs', hplace⟩ => ?_) hs
  · obtain ⟨s', hs', hplace⟩ := h.walks_spot hs
    exact ⟨s', followNames_eq_ok.2 (.inl hs'), hplace⟩
  · exact ⟨s', followNames_eq_ok.2 (.inr ⟨_, _, h.walks_detour hd, rfl, hs'⟩), hplace⟩

/-- what can be written to before can be written to after, at the same place -/
theorem Overwrites.writeTarget (h : t.Overwrites t' l) (hcwd : t.isDirectoryAt cwd = true)
    (hl' : t.writeTarget cwd p = .ok l') : t'.writeTarget cwd p = .ok l' := by
  obtain ⟨s, hs, rfl, hdir⟩ := follow_of_writeTarget hcwd hl'
  obtain ⟨s', hs', hplace⟩ := h.follow hs
  rw [← hplace] at hdir ⊢
  exact writeTarget_of_follow hs' (h.isDirectoryAt.trans hdir)

/-! ## making directories -/

/-- all files and links stay as they are, and no other ones come; directories stay -/
structure Grows (t t' : FileTree) : Prop where
  same : ∀ l c, c.isDirectory = false → (t'.get? l = some c ↔ t.get? l = some c)
  directories : ∀ l, t.isDirectoryAt l = true → t'.isDirectoryAt l = true

theorem Grows.refl : t.Grows t := ⟨fun _ _ _ => Iff.rfl, fun _ h => h⟩

theorem Grows.trans (h : t.Grows t') (h' : t'.Grows t'') : t.Grows t'' :=
  ⟨fun l c hc => (h'.same l c hc).trans (h.same l c hc), fun l hl =>
    h'.directories l (h.directories l hl)⟩

theorem grows_put (hdir : t.isDirectoryAt dir = true) (hnone : t.get? (dir ++ [name]) = none) :
    t.Grows (t.put (.directory []) (dir ++ [name])) := by
  have hin : ∀ rest, t.get? (dir ++ [name] ++ rest) = none := by
    intro rest
    rw [get?_append, hnone]
    rfl
  refine ⟨fun l c hc => ?_, fun l hl => ?_⟩
  · by_cases hprefix : dir ++ [name] <+: l
    · obtain ⟨rest, rfl⟩ := hprefix
      rw [get?_put_append hdir, hin]
      cases rest with
      | nil =>
        simp only [get?, Option.some.injEq, reduceCtorEq, iff_false]
        rintro rfl
        cases hc
      | cons x rest => simp [get?, child?]
    · have hsame : (t.put (.directory []) (dir ++ [name])).bareAt? l = t.bareAt? l :=
        bareAt?_put_of_not_below hdir hprefix
      cases c with
      | file bytes => rw [← bareAt?_eq_file, ← bareAt?_eq_file, hsame]
      | link target => rw [← bareAt?_eq_link, ← bareAt?_eq_link, hsame]
      | directory entries => cases hc
  · by_cases hprefix : dir ++ [name] <+: l
    · obtain ⟨rest, rfl⟩ := hprefix
      rw [isDirectoryAt, hin] at hl
      cases hl
    · rwa [isDirectoryAt_congr (bareAt?_put_of_not_below hdir hprefix)]

theorem grows_makeDirectory (h : t.makeDirectory cwd p = .ok t') : t.Grows t' := by
  unfold makeDirectory at h
  split at h
  · cases h
  split at h
  · cases h
  split at h
  · cases h
  · cases h
  split at h
  · cases h
  rename_i hdir
  split at h
  · cases h
  split at h
  · cases h
  split at h
  · cases h
  rename_i hnone
  obtain rfl := Except.ok.inj h
  exact grows_put (by simpa using hdir) (by simpa using hnone)

theorem orDirectory_fst {f : FileFault} : (t.orDirectory cwd p f).1 = t := by
  unfold orDirectory
  split <;> rfl

theorem grows_makeDirectories : t.Grows (t.makeDirectories cwd p).1 := by
  unfold makeDirectories
  generalize p.parts.reverse = names
  induction names generalizing t with
  | nil =>
    rw [makeDirectoriesFrom, orDirectory_fst]
    exact .refl
  | cons name names ih =>
    rw [makeDirectoriesFrom]
    split
    · exact grows_makeDirectory ‹_›
    · have habove : t.Grows (t.makeDirectoriesFrom cwd p.root names).1 := ih
      split
      · rename_i t' f ht'
        rwa [ht'] at habove
      · rename_i t' ht'
        rw [ht'] at habove
        split
        · exact habove.trans (grows_makeDirectory ‹_›)
        · exact habove
        · rw [orDirectory_fst]
          exact habove
    · rw [orDirectory_fst]
      exact .refl

end Relocation.FileTree
