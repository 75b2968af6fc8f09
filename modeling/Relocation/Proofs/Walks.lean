import Relocation.FileTree.Access

/-!
# Walks through a tree

Where a path leads depends on no more than what stands at each place, of a directory only that it is
one (`FileTree.bareAt?`).  `FileTree.Walks` says what going through names can come to: the place at
their end, the first name that is not there, or the first link.  Every way along links is such walks
one after another (`FileTree.followNames_induction`).
-/

namespace Relocation.FileTree

variable {t t' : FileTree} {l l' dir here cwd : Location} {name target : Text} {names : List Text}
  {entries : List (Text × FileTree)} {bytes : List UInt8} {aim : Aim} {links : Nat} {p : Path}
  {s : Spot} {r : Spot ⊕ Detour}

/-! ## what stands at a place -/

/-- a directory without its entries -/
def bare : FileTree → FileTree
  | .directory _ => .directory []
  | t => t

/-- what stands at a place; of a directory, only that it is one -/
def bareAt? (t : FileTree) (l : Location) : Option FileTree := (t.get? l).map bare

theorem bareAt?_eq_file : t.bareAt? l = some (.file bytes) ↔ t.get? l = some (.file bytes) := by
  unfold bareAt?
  rcases t.get? l with _ | _ | _ | _ <;> simp [bare]

theorem bareAt?_eq_link : t.bareAt? l = some (.link target) ↔ t.get? l = some (.link target) := by
  unfold bareAt?
  rcases t.get? l with _ | _ | _ | _ <;> simp [bare]

theorem bareAt?_eq_none : t.bareAt? l = none ↔ t.get? l = none := Option.map_eq_none_iff

theorem isDirectoryAt_iff : t.isDirectoryAt l = true ↔ t.bareAt? l = some (.directory []) := by
  unfold isDirectoryAt bareAt?
  rcases t.get? l with _ | _ | _ | _ <;> simp [bare, isDirectory]

theorem isDirectoryAt_of_bareAt? (h : t.bareAt? l = some (.directory entries)) :
    t.isDirectoryAt l = true := by
  obtain ⟨c, hc, hbare⟩ := Option.map_eq_some_iff.1 h
  rw [isDirectoryAt, hc]
  cases c with
  | directory entries => rfl
  | _ => cases hbare

theorem isDirectoryAt_congr (h : t'.bareAt? l = t.bareAt? l) :
    t'.isDirectoryAt l = t.isDirectoryAt l := by
  rw [Bool.eq_iff_iff, isDirectoryAt_iff, isDirectoryAt_iff, h]

theorem get?_append : t.get? (l ++ l') = (t.get? l).bind (·.get? l') := by
  induction l generalizing t with
  | nil => rfl
  | cons name l ih =>
    rw [List.cons_append, get?, get?]
    cases t.child? name with
    | none => rfl
    | some c => exact ih

/-- whatever has something in it is a directory -/
theorem isDirectoryAt_of_get? {c : FileTree} (h : t.get? (dir ++ [name]) = some c) :
    t.isDirectoryAt dir = true := by
  rw [get?_append, Option.bind_eq_some_iff] at h
  obtain ⟨d, hd, hc⟩ := h
  rw [isDirectoryAt, hd]
  cases d with
  | directory entries => rfl
  | _ => cases hc

theorem isDirectoryAt_dropLast (h : t.isDirectoryAt l = true) :
    t.isDirectoryAt l.dropLast = true := by
  rcases List.eq_nil_or_concat l with rfl | ⟨dir, name, rfl⟩
  · exact h
  · rw [List.concat_eq_append, List.dropLast_concat]
    rw [List.concat_eq_append, isDirectoryAt] at h
    split at h
    · exact isDirectoryAt_of_get? ‹_›
    · cases h

theorem isDirectoryAt_nil (h : t.isDirectoryAt l = true) : t.isDirectoryAt [] = true := by
  cases l with
  | nil => exact h
  | cons name l =>
    cases t with
    | directory entries => rfl
    | _ => cases h

/-- something stands at a place, and it is no link -/
def Stands (t : FileTree) (l : Location) : Prop :=
  ∃ c, t.bareAt? l = some c ∧ ∀ target, c ≠ .link target

theorem stands_of_isDirectoryAt (h : t.isDirectoryAt l = true) : t.Stands l :=
  ⟨.directory [], isDirectoryAt_iff.1 h, by simp⟩

theorem stands_of_file (h : t.bareAt? l = some (.file bytes)) : t.Stands l :=
  ⟨.file bytes, h, by simp⟩

theorem stands_congr (h : t'.bareAt? l = t.bareAt? l) : t'.Stands l ↔ t.Stands l := by
  rw [Stands, Stands, h]

/-! ## walks without links -/

/-- is it the name of an entry, and not a way to say nothing or to go up? -/
def IsEntry (name : Text) : Prop := Path.isIdle name = false ∧ name ≠ Path.up

/-- a directory is asked for a name, with the names that come after it in view -/
structure Asks (t : FileTree) (aim : Aim) (here : Location) (name : Text)
    (names : List Text) : Prop where
  directory : t.isDirectoryAt here = true
  entry : IsEntry name
  ending : (aim = .write && endsInSlash names) = false
  short : isNameTooLong name = false

/-- what going through names comes to, up to the first link -/
inductive Walks (t : FileTree) (aim : Aim) : Location → List Text → Spot ⊕ Detour → Prop
  | done {here : Location} : Walks t aim here [] (.inl (.present here))
  | idle {here : Location} {name : Text} {names : List Text} {r : Spot ⊕ Detour}
    (hdir : t.isDirectoryAt here = true) (hidle : Path.isIdle name = true)
    (hrest : Walks t aim here names r) :
    Walks t aim here (name :: names) r
  | up {here : Location} {names : List Text} {r : Spot ⊕ Detour}
    (hdir : t.isDirectoryAt here = true) (hrest : Walks t aim here.dropLast names r) :
    Walks t aim here (Path.up :: names) r
  | missing {here : Location} {name : Text} (hasks : t.Asks aim here name [])
    (hnone : t.bareAt? (here ++ [name]) = none) :
    Walks t aim here [name] (.inl (.absent (here ++ [name])))
  | link {here : Location} {name target : Text} {names : List Text}
    (hasks : t.Asks aim here name names) (hlink : t.bareAt? (here ++ [name]) = some (.link target)) :
    Walks t aim here (name :: names) (.inr ⟨here, target, names⟩)
  | enter {here : Location} {name : Text} {names : List Text} {r : Spot ⊕ Detour}
    (hasks : t.Asks aim here name names) (hstands : t.Stands (here ++ [name]))
    (hrest : Walks t aim (here ++ [name]) names r) :
    Walks t aim here (name :: names) r

theorem stride_cons :
    t.stride aim here (name :: names) =
      if !t.isDirectoryAt here then .error .notDirectory
      else if Path.isIdle name then t.stride aim here names
      else if name = Path.up then t.stride aim here.dropLast names
      else if aim = .write && endsInSlash names then .error .isDirectory
      else if isNameTooLong name then .error .nameTooLong
      else match t.bareAt? (here ++ [name]) with
        | none => if names = [] then .ok (.inl (.absent (here ++ [name]))) else .error .missing
        | some (.link target) => .ok (.inr ⟨here, target, names⟩)
        | some _ => t.stride aim (here ++ [name]) names := by
  rw [stride, bareAt?]
  rcases t.get? (here ++ [name]) with _ | _ | _ | _ <;> rfl

theorem Asks.stride_cons (h : t.Asks aim here name names) :
    t.stride aim here (name :: names) =
      match t.bareAt? (here ++ [name]) with
        | none => if names = [] then .ok (.inl (.absent (here ++ [name]))) else .error .missing
        | some (.link target) => .ok (.inr ⟨here, target, names⟩)
        | some _ => t.stride aim (here ++ [name]) names := by
  rw [FileTree.stride_cons, h.directory, h.entry.1, if_neg (by simp), if_neg (by simp),
    if_neg h.entry.2, h.ending, if_neg (by simp), h.short, if_neg (by simp)]

theorem walks_of_stride (h : t.stride aim here names = .ok r) : t.Walks aim here names r := by
  induction names generalizing here with
  | nil =>
    obtain rfl := Except.ok.inj h
    exact .done
  | cons name names ih =>
    rw [stride_cons] at h
    split at h
    · cases h
    rename_i hdir
    replace hdir : t.isDirectoryAt here = true := by simpa using hdir
    split at h
    · exact .idle hdir ‹_› (ih h)
    rename_i hidle
    split at h
    · rename_i hup
      subst hup
      exact .up hdir (ih h)
    rename_i hup
    split at h
    · cases h
    rename_i hending
    split at h
    · cases h
    rename_i hshort
    have hasks : t.Asks aim here name names :=
      ⟨hdir, ⟨eq_false_of_ne_true hidle, hup⟩, eq_false_of_ne_true hending,
        eq_false_of_ne_true hshort⟩
    split at h
    · rename_i hnone
      split at h
      · rename_i hnil
        subst hnil
        obtain rfl := Except.ok.inj h
        exact .missing hasks hnone
      · cases h
    · rename_i hlink
      obtain rfl := Except.ok.inj h
      exact .link hasks hlink
    · rename_i c hlink hc
      exact .enter hasks ⟨c, hc, fun target hct => hlink target (hct ▸ rfl)⟩ (ih h)

theorem Walks.stride (h : t.Walks aim here names r) : t.stride aim here names = .ok r := by
  induction h with
  | done => rfl
  | idle hdir hidle _ ih => rw [FileTree.stride_cons, hdir, hidle, if_neg (by simp), if_pos rfl, ih]
  | up hdir _ ih =>
    rw [FileTree.stride_cons, hdir, if_neg (by simp), if_neg (by decide), if_pos rfl, ih]
  | missing hasks hnone =>
    rw [hasks.stride_cons, hnone]
    rfl
  | link hasks hlink => rw [hasks.stride_cons, hlink]
  | enter hasks hstands _ ih =>
    obtain ⟨c, hc, hlink⟩ := hstands
    rw [hasks.stride_cons, hc]
    cases c with
    | link target => exact absurd rfl (hlink target)
    | _ => exact ih

theorem stride_eq_ok : t.stride aim here names = .ok r ↔ t.Walks aim here names r :=
  ⟨walks_of_stride, Walks.stride⟩

/-- what is found to be there when a file is to be written is found without this aim, too -/
theorem Walks.find (h : t.Walks .write here names r) : t.Walks .find here names r := by
  have hfind : ∀ {here name names}, t.Asks .write here name names → t.Asks .find here name names :=
    fun hasks => ⟨hasks.directory, hasks.entry, rfl, hasks.short⟩
  induction h with
  | done => exact .done
  | idle hdir hidle _ ih => exact .idle hdir hidle ih
  | up hdir _ ih => exact .up hdir ih
  | missing hasks hnone => exact .missing (hfind hasks) hnone
  | link hasks hlink => exact .link (hfind hasks) hlink
  | enter hasks hstands _ ih => exact .enter (hfind hasks) hstands ih

/-- what a spot says of a tree -/
def Spot.Holds (t : FileTree) : Spot → Prop
  | .present l => t.Stands l
  | .absent l => ∃ dir name, l = dir ++ [name] ∧ t.isDirectoryAt dir = true ∧ t.get? l = none

theorem Walks.holds (h : t.Walks aim here names r) (hhere : t.Stands here) : ∀ s, r = .inl s →
    s.Holds t := by
  induction h with
  | done =>
    rintro _ ⟨⟩
    exact hhere
  | idle _ _ _ ih => exact ih hhere
  | up hdir _ ih => exact ih (stands_of_isDirectoryAt (isDirectoryAt_dropLast hdir))
  | missing hasks hnone =>
    rintro _ ⟨⟩
    exact ⟨_, _, rfl, hasks.directory, bareAt?_eq_none.1 hnone⟩
  | link => rintro _ ⟨⟩
  | enter _ hstands _ ih => exact ih hstands

theorem Walks.isDirectoryAt_directory (h : t.Walks aim here names r) :
    ∀ d, r = .inr d → t.isDirectoryAt d.directory = true := by
  induction h with
  | done => rintro _ ⟨⟩
  | missing => rintro _ ⟨⟩
  | link hasks =>
    rintro _ ⟨⟩
    exact hasks.directory
  | idle _ _ _ ih => exact ih
  | up _ _ ih => exact ih
  | enter _ _ _ ih => exact ih

/-! ## ways along links -/

theorem followNames_eq_ok :
    t.followNames aim links here names = .ok s ↔ t.Walks aim here names (.inl s) ∨
      ∃ d n, t.Walks aim here names (.inr d) ∧ links = n + 1 ∧
      t.followNames aim n d.start d.names = .ok s := by
  rw [followNames.eq_def]
  simp only [← stride_eq_ok]
  cases hr : t.stride aim here names with
  | error f => simp
  | ok r =>
    rcases r with s' | d
    · simp
    · cases links with
      | zero => simp
      | succ n => simp

/-- what holds of ways with no link on them, and of a way behind one link if it holds of the rest,
holds of all ways -/
theorem followNames_induction {motive : Nat → Location → List Text → Prop}
    (spot : ∀ {links here names}, t.Walks aim here names (.inl s) → motive links here names)
    (detour : ∀ {links here names d}, t.Walks aim here names (.inr d) →
      motive links d.start d.names →
      motive (links + 1) here names)
    (h : t.followNames aim links here names = .ok s) : motive links here names := by
  induction links generalizing here names with
  | zero =>
    rcases followNames_eq_ok.1 h with h | ⟨d, n, -, hn, -⟩
    · exact spot h
    · cases hn
  | succ links ih =>
    rcases followNames_eq_ok.1 h with h | ⟨d, n, hd, hn, h⟩
    · exact spot h
    · obtain rfl := Nat.succ.inj hn
      exact detour hd (ih h)

theorem followNames_holds (hroot : t.isDirectoryAt [] = true) (hhere : t.Stands here)
    (h : t.followNames aim links here names = .ok s) : s.Holds t := by
  refine followNames_induction (motive := fun _ here _ => t.Stands here → s.Holds t)
    (fun hs hhere => hs.holds hhere s rfl) (fun {_ _ _ d} hd ih _ => ih ?_) h hhere
  unfold Detour.start
  split
  · exact stands_of_isDirectoryAt hroot
  · exact stands_of_isDirectoryAt (hd.isDirectoryAt_directory d rfl)

theorem follow_eq_ok :
    t.follow aim cwd p = .ok s ↔
      isPathTooLong p = false ∧ t.followNames aim linkLimit (startOf cwd p) p.parts = .ok s := by
  unfold follow
  cases isPathTooLong p <;> simp

theorem follow_holds (hcwd : t.isDirectoryAt cwd = true) (h : t.follow aim cwd p = .ok s) :
    s.Holds t := by
  refine followNames_holds (isDirectoryAt_nil hcwd) ?_ (follow_eq_ok.1 h).2
  unfold startOf
  split
  · exact stands_of_isDirectoryAt (isDirectoryAt_nil hcwd)
  · exact stands_of_isDirectoryAt hcwd

/-- a path is read through as it is written through -/
theorem follow_find (h : t.follow .write cwd p = .ok s) : t.follow .find cwd p = .ok s := by
  obtain ⟨hshort, h⟩ := follow_eq_ok.1 h
  refine follow_eq_ok.2 ⟨hshort, ?_⟩
  exact followNames_induction (motive := fun links here names =>
    t.followNames .find links here names = .ok s)
      (fun hs => followNames_eq_ok.2 (.inl hs.find)) (fun hd ih =>
      followNames_eq_ok.2 (.inr ⟨_, _, hd.find, rfl, ih⟩)) h

theorem present_of_lookup {c : FileTree} (h : t.lookup cwd p = .ok c) :
    ∃ l, t.follow .find cwd p = .ok (.present l) ∧ t.get? l = some c := by
  unfold lookup at h
  split at h
  · cases h
  · cases h
  · rename_i l hl
    refine ⟨l, hl, ?_⟩
    split at h
    · cases h
      assumption
    · cases h

end Relocation.FileTree
