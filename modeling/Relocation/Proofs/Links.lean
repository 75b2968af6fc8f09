import Mathlib.Data.List.Perm.Subperm
import Mathlib.Logic.Relation
import Relocation.FileTree.Resolve
import Relocation.Proofs.Walks

/-!
# Links that lead somewhere

A walk goes through names one by one and replaces each link it meets by the names of its target;
names that are not there do not stop it.  In a tree in which no link leads back to itself
(`FileTree.Acyclic`) all links of a path can be replaced (`FileTree.resolve_complete`): the links
that are being replaced at one time all lead to the innermost of them, so they are different links
of the tree, and the depth that is allowed is never used up.  The place that the path resolves to
has no link on the way to it (`FileTree.Clear`).
-/

namespace Relocation.FileTree

variable {t : FileTree} {here dir l l' l'' : Location} {name target : Text} {names rest : List Text}

/-! ## the links of a tree -/

mutual
/-- the places of the links in a tree -/
def linkPlaces : FileTree → List Location
  | .file _ => []
  | .link _ => [[]]
  | .directory entries => linkPlacesAll entries

def linkPlacesAll : List (Text × FileTree) → List Location
  | [] => []
  | (name, t) :: r => (linkPlaces t).map (name :: ·) ++ linkPlacesAll r
end

mutual
theorem length_linkPlaces : ∀ t : FileTree, t.linkPlaces.length = t.linkCount
  | .file _ => rfl
  | .link _ => rfl
  | .directory entries => by rw [linkPlaces, linkCount, length_linkPlacesAll entries]

theorem length_linkPlacesAll : ∀ entries, (linkPlacesAll entries).length = linkCountAll entries
  | [] => rfl
  | (name, t) :: r => by
    rw [linkPlacesAll, linkCountAll, List.length_append, List.length_map, length_linkPlaces t,
      length_linkPlacesAll r]
end

theorem mem_linkPlacesAll {c : FileTree} {entries : List (Text × FileTree)}
    (hc : (name, c) ∈ entries) (hl : l ∈ c.linkPlaces) : name :: l ∈ linkPlacesAll entries := by
  induction entries with
  | nil => cases hc
  | cons e r ih =>
    rw [linkPlacesAll, List.mem_append]
    rcases List.mem_cons.1 hc with rfl | hc
    · exact .inl (List.mem_map.2 ⟨l, hl, rfl⟩)
    · exact .inr (ih hc)

theorem mem_linkPlaces (h : t.get? l = some (.link target)) : l ∈ t.linkPlaces := by
  induction l generalizing t with
  | nil =>
    obtain rfl := Option.some.inj h
    exact List.mem_singleton.2 rfl
  | cons name l ih =>
    cases t with
    | directory entries =>
      rw [get?] at h
      cases hc : (directory entries).child? name with
      | none => simp [hc] at h
      | some c =>
        rw [hc] at h
        rw [child?, Option.map_eq_some_iff] at hc
        obtain ⟨e, he, rfl⟩ := hc
        obtain rfl : e.1 = name := by simpa using List.find?_some he
        exact mem_linkPlacesAll (List.mem_of_find?_eq_some he) (ih h)
    | _ => cases h

theorem length_le_linkCount {places : List Location} (hnodup : places.Nodup)
    (h : ∀ l ∈ places, ∃ target, t.get? l = some (.link target)) : places.length ≤ t.linkCount := by
  rw [← length_linkPlaces]
  refine (hnodup.subperm fun l hl => ?_).length_le
  obtain ⟨target, htarget⟩ := h l hl
  exact mem_linkPlaces htarget

/-! ## walks -/

/-- how far a walk has come, and the names it has still to go through -/
structure Stage where
  here : Location
  names : List Text
  deriving DecidableEq

/-- the walk that the target of a link asks for, seen from the directory of the link -/
def Detour.stage (d : Detour) : Stage := ⟨d.start, d.names⟩

/-- the next stage of a walk -/
def advance (t : FileTree) : Stage → Option Stage
  | ⟨_, []⟩ => none
  | ⟨here, name :: r⟩ =>
    if Path.isIdle name then some ⟨here, r⟩
    else if name = Path.up then some ⟨here.dropLast, r⟩
    else match t.get? (here ++ [name]) with
      | some (.link target) => some (Detour.stage ⟨here, target, r⟩)
      | _ => some ⟨here ++ [name], r⟩

def Reaches (t : FileTree) : Stage → Stage → Prop :=
  Relation.ReflTransGen fun a b => t.advance a = some b

/-- the walk that the target of the first link asks for comes to stand before the second place -/
def LeadsTo (t : FileTree) (l l' : Location) : Prop :=
  ∃ target dir name rest, t.get? l = some (.link target) ∧ IsEntry name ∧
    t.Reaches (Detour.stage ⟨l.dropLast, target, []⟩) ⟨dir, name :: rest⟩ ∧ l' = dir ++ [name]

/-- no link leads back to itself -/
def Acyclic (t : FileTree) : Prop := ∀ l, ¬ t.LeadsTo l l

/-- nothing on the way to a place is a link, and every name on it is one of an entry -/
def Clear (t : FileTree) (l : Location) : Prop :=
  ∀ dir name, dir ++ [name] <+: l →
    IsEntry name ∧ ∀ target, t.get? (dir ++ [name]) ≠ some (.link target)

theorem advance_idle (h : Path.isIdle name = true) :
    t.advance ⟨here, name :: names⟩ = some ⟨here, names⟩ := by
  rw [advance, if_pos h]

theorem advance_up (h : Path.isIdle name = false) (hup : name = Path.up) :
    t.advance ⟨here, name :: names⟩ = some ⟨here.dropLast, names⟩ := by
  rw [advance, if_neg (by simp [h]), if_pos hup]

theorem advance_link (h : IsEntry name) (hl : t.get? (here ++ [name]) = some (.link target)) :
    t.advance ⟨here, name :: names⟩ = some (Detour.stage ⟨here, target, names⟩) := by
  rw [advance, if_neg (by simp [h.1]), if_neg h.2, hl]

theorem advance_entry (h : IsEntry name)
    (hl : ∀ target, t.get? (here ++ [name]) ≠ some (.link target)) :
    t.advance ⟨here, name :: names⟩ = some ⟨here ++ [name], names⟩ := by
  rw [advance, if_neg (by simp [h.1]), if_neg h.2]
  split
  · rename_i target htarget
    exact absurd htarget (hl target)
  · rfl

/-- names that come later do not matter yet -/
theorem advance_frame {a b : Stage} (h : t.advance a = some b) (rest : List Text) :
    t.advance ⟨a.here, a.names ++ rest⟩ = some ⟨b.here, b.names ++ rest⟩ := by
  obtain ⟨here, _ | ⟨name, r⟩⟩ := a
  · cases h
  · simp only [advance, List.cons_append] at h ⊢
    split at h
    · cases h
      rw [if_pos ‹_›]
    · rw [if_neg ‹_›]
      split at h
      · cases h
        rw [if_pos ‹_›]
      · rw [if_neg ‹_›]
        split at h
        · cases h
          simp [Detour.stage, Detour.start, Detour.names]
        · cases h
          rfl

theorem Reaches.frame {a b : Stage} (h : t.Reaches a b) (rest : List Text) :
    t.Reaches ⟨a.here, a.names ++ rest⟩ ⟨b.here, b.names ++ rest⟩ :=
  Relation.ReflTransGen.lift (fun s : Stage => (⟨s.here, s.names ++ rest⟩ : Stage))
    (fun _ _ hab => advance_frame hab rest) _ _ h

theorem Reaches.next {a b c : Stage} (h : t.Reaches a b) (hab : a ≠ b) (hc : t.advance a = some c) :
    t.Reaches c b := by
  rcases h.cases_head with h | ⟨c', hc', hreach⟩
  · exact absurd h hab
  · obtain rfl : c = c' := Option.some.inj (hc.symm.trans hc')
    exact hreach

theorem Detour.stage_rest (rest : List Text) :
    Detour.stage ⟨dir, target, rest⟩ =
      ⟨(Detour.stage ⟨dir, target, []⟩).here, (Detour.stage ⟨dir, target, []⟩).names ++ rest⟩ := by
  simp [Detour.stage, Detour.start, Detour.names]

theorem LeadsTo.exists_target (h : t.LeadsTo l l') : ∃ target, t.get? l = some (.link target) := by
  obtain ⟨target, -, -, -, hl, -⟩ := h
  exact ⟨target, hl⟩

theorem LeadsTo.trans (h : t.LeadsTo l l') (h' : t.LeadsTo l' l'') : t.LeadsTo l l'' := by
  obtain ⟨target, dir, name, rest, hl, hname, hreach, rfl⟩ := h
  obtain ⟨target', dir', name', rest', hl', hname', hreach', rfl⟩ := h'
  refine ⟨target, dir', name', rest' ++ rest, hl, hname', ?_, rfl⟩
  rw [List.dropLast_concat] at hreach'
  have hstep : t.advance ⟨dir, name :: rest⟩ = some (Detour.stage ⟨dir, target', rest⟩) :=
    advance_link hname hl'
  rw [Detour.stage_rest] at hstep
  exact (hreach.tail hstep).trans (hreach'.frame rest)

/-! ## clear places -/

theorem clear_nil : t.Clear [] := by
  intro dir name h
  simp at h

theorem clear_concat : t.Clear (here ++ [name]) ↔
    t.Clear here ∧ IsEntry name ∧ ∀ target, t.get? (here ++ [name]) ≠ some (.link target) := by
  refine ⟨fun h => ⟨fun dir name' hd => h dir name' (hd.trans (List.prefix_append ..)),
    h here name List.prefix_rfl⟩, fun ⟨hhere, hname⟩ dir name' hd => ?_⟩
  rcases List.prefix_concat_iff.1 hd with hd | hd
  · obtain ⟨rfl, rfl⟩ : dir = here ∧ name' = name := by simpa using hd
    exact hname
  · exact hhere dir name' hd

theorem Clear.dropLast (h : t.Clear here) : t.Clear here.dropLast :=
  fun dir name hd => h dir name (hd.trans (List.dropLast_prefix here))

/-- where an absolute path or a relative one starts from -/
theorem Clear.start {absolute : Bool} (h : t.Clear dir) :
    t.Clear (if absolute then [] else dir) := by
  split
  · exact clear_nil
  · exact h

/-! ## resolving -/

/-- names resolve to where the walk through them ends, if this holds of the links on the way -/
theorem resolveNames_reaches {replace : Location → Text → Resolved} (hhere : t.Clear here)
    (hreplace : ∀ dir name rest target, t.Reaches ⟨here, names⟩ ⟨dir, name :: rest⟩ → IsEntry name →
      t.Clear dir →
      t.get? (dir ++ [name]) = some (.link target) →
      ∃ l, replace (dir ++ [name]) target = ⟨.absolute l, true⟩ ∧ t.Clear l ∧
        t.Reaches (Detour.stage ⟨dir, target, []⟩) ⟨l, []⟩) :
    ∃ l, t.resolveNames replace here names = ⟨.absolute l, true⟩ ∧ t.Clear l ∧
    t.Reaches ⟨here, names⟩ ⟨l, []⟩ := by
  induction names generalizing here with
  | nil => exact ⟨here, rfl, hhere, .refl⟩
  | cons name names ih =>
    have hgo : ∀ here', t.Clear here' → t.Reaches ⟨here, name :: names⟩ ⟨here', names⟩ →
        ∃ l, t.resolveNames replace here' names = ⟨.absolute l, true⟩ ∧ t.Clear l ∧
          t.Reaches ⟨here, name :: names⟩ ⟨l, []⟩ := by
      intro here' hhere' hreach
      obtain ⟨l, hl, hclear, hlast⟩ := ih hhere' fun dir name rest target hdir =>
        hreplace dir name rest target (hreach.trans hdir)
      exact ⟨l, hl, hclear, hreach.trans hlast⟩
    rw [resolveNames]
    cases hidle : Path.isIdle name with
    | true => exact hgo here hhere (.single (advance_idle hidle))
    | false =>
      rw [if_neg Bool.false_ne_true]
      by_cases hup : name = Path.up
      · rw [if_pos hup]
        exact hgo here.dropLast hhere.dropLast (.single (advance_up hidle hup))
      · rw [if_neg hup]
        have hname : IsEntry name := ⟨hidle, hup⟩
        split
        · rename_i target htarget
          obtain ⟨l, hl, hclear, hreach⟩ :=
            hreplace here name names target .refl hname hhere htarget
          have hstep :
              t.advance ⟨here, name :: names⟩ = some (Detour.stage ⟨here, target, names⟩) :=
            advance_link hname htarget
          rw [Detour.stage_rest] at hstep
          rw [hl]
          exact hgo l hclear (.head hstep (hreach.frame names))
        · rename_i hlink
          exact hgo (here ++ [name]) (clear_concat.2 ⟨hhere, hname, fun target => hlink target⟩)
            (.single (advance_entry hname fun target => hlink target))

/-- the links being replaced all lead to the one that is to be replaced next, so it is not one of
them -/
theorem resolveLink_reaches {depth : Nat} {pending : List Location} (hacyclic : t.Acyclic)
    (hdir : t.Clear dir) (htarget : t.get? (dir ++ [name]) = some (.link target))
    (hnodup : pending.Nodup) (hpending : ∀ p ∈ pending, t.LeadsTo p (dir ++ [name]))
    (hdepth : t.linkCount < pending.length + depth) :
    ∃ l, t.resolveLink depth pending (dir ++ [name]) target = ⟨.absolute l, true⟩ ∧ t.Clear l ∧
      t.Reaches (Detour.stage ⟨dir, target, []⟩) ⟨l, []⟩ := by
  induction depth generalizing pending dir name target with
  | zero =>
    have := length_le_linkCount hnodup fun p hp => (hpending p hp).exists_target
    omega
  | succ depth ih =>
    have hnew : dir ++ [name] ∉ pending := fun h => hacyclic _ (hpending _ h)
    rw [resolveLink, if_neg (by simpa using hnew), List.dropLast_concat]
    have hnames : Detour.stage ⟨dir, target, []⟩ =
        ⟨if (Path.ofText target).isAbsolute then [] else dir, Text.splitOn (.char '/') target⟩ := by
      simp [Detour.stage, Detour.start, Detour.names]
    rw [hnames]
    refine resolveNames_reaches hdir.start
      fun dir' name' rest' target' hreach hname' hdir' htarget' => ?_
    have hlead : t.LeadsTo (dir ++ [name]) (dir' ++ [name']) := by
      refine ⟨target, dir', name', rest', htarget, hname', ?_, rfl⟩
      rw [List.dropLast_concat, hnames]
      exact hreach
    refine ih hdir' htarget' (List.nodup_cons.2 ⟨hnew, hnodup⟩)
      (fun p hp => ?_) (by simp only [List.length_cons]; omega)
    rcases List.mem_cons.1 hp with rfl | hp
    · exact hlead
    · exact (hpending p hp).trans hlead

/-- Without link cycles every path resolves, to a place with no link on the way to it. -/
theorem resolve_complete {cwd : Location} {p : Path} (hacyclic : t.Acyclic) (hcwd : t.Clear cwd) :
    ∃ l, t.resolve cwd p = ⟨.absolute l, true⟩ ∧ t.Clear l := by
  obtain ⟨l, hl, hclear, -⟩ : ∃ l, t.resolve cwd p = ⟨.absolute l, true⟩ ∧ t.Clear l ∧
    t.Reaches ⟨_, p.parts⟩ ⟨l, []⟩ :=
    resolveNames_reaches hcwd.start fun dir name rest target _ _ hdir htarget =>
      resolveLink_reaches hacyclic hdir htarget List.nodup_nil (by simp) (by simp)
  exact ⟨l, hl, hclear⟩

/-! ## following -/

/-- names with no link among them are gone through one by one -/
theorem Walks.spot_of_clear {aim : Aim} {r : Spot ⊕ Detour} (h : t.Walks aim here names r)
    (hclear : t.Clear (here ++ names)) : r = .inl (.present (here ++ names)) ∨
    r = .inl (.absent (here ++ names)) := by
  induction h with
  | done => exact .inl (by rw [List.append_nil])
  | @idle here name names r _ hidle =>
    obtain ⟨⟨hname, -⟩, -⟩ := hclear here name (by simp)
    cases hname.symm.trans hidle
  | @up here names =>
    obtain ⟨⟨-, hname⟩, -⟩ := hclear here Path.up (by simp)
    exact absurd rfl hname
  | missing => exact .inr rfl
  | @link here name target names _ hlink =>
    obtain ⟨-, hno⟩ := hclear here name (by simp)
    exact absurd (bareAt?_eq_link.1 hlink) (hno target)
  | @enter here name names r _ _ _ ih =>
    have hsplit : here ++ name :: names = here ++ [name] ++ names := by simp
    rw [hsplit] at hclear ⊢
    exact ih hclear

/-- what a clear place is looked up to is what stands there -/
theorem lookup_clear {c : FileTree} (hclear : t.Clear l) (h : t.lookup [] (.absolute l) = .ok c) :
    t.follow .find [] (.absolute l) = .ok (.present l) ∧ t.get? l = some c := by
  obtain ⟨l', hfollow, hget⟩ := present_of_lookup h
  obtain rfl : l' = l := by
    have hnames := (follow_eq_ok.1 hfollow).2
    have hall : t.Clear ([] ++ l) := by rwa [List.nil_append]
    rcases followNames_eq_ok.1 hnames with hwalk | ⟨d, n, hwalk, -⟩
    · rcases hwalk.spot_of_clear hall with h | h <;> cases h
      rfl
    · rcases hwalk.spot_of_clear hall with h | h <;> cases h
  exact ⟨hfollow, hget⟩

end Relocation.FileTree
