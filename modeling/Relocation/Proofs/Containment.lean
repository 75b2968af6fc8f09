import Relocation.Proofs.Links
import Relocation.Proofs.Outcome
import Relocation.Server

/-!
# What the server lets out

Whatever links the tree has, as long as none leads back to itself, a file that the server answers
with lies below the directory that it serves, unless it stands there as the index of a directory and
is a link (`Server.respond_below`).  The index is put at the end of a path that is resolved already
and is not resolved again, so such a link may lead out (`Server.respond_outside`).
-/

namespace Relocation.Server

variable {t : FileTree} {s : Server} {cwd l asset : Location} {p q : Path} {path : Text}
  {r : Response}

theorem resolve_clear (hacyclic : t.Acyclic) (hcwd : t.Clear cwd) (h : resolve t cwd p = .ok q) :
    ∃ l, q = .absolute l ∧ t.Clear l := by
  obtain ⟨l, hl, hclear⟩ := FileTree.resolve_complete (p := p) hacyclic hcwd
  refine ⟨l, ?_, hclear⟩
  unfold resolve at h
  rw [hl] at h
  split at h
  · cases h
  · exact (Except.ok.inj h).symm

theorem lookup_of_held? {c : FileTree} (h : held? t l = .ok (some c)) :
    t.lookup [] (.absolute l) = .ok c := by
  unfold held? at h
  split at h
  · rename_i hc
    obtain rfl := Option.some.inj (Except.ok.inj h)
    exact hc
  · cases h
  · cases h

/-- what is served stands below the directory under its own name, or is the index of a directory
that does -/
theorem asset?_below (hacyclic : t.Acyclic) (h : s.asset? t path = .ok (some asset)) :
    ∃ l, t.Clear l ∧
    s.root.parts <+: l ∧ (asset = l ∨ t.isDirectoryAt l = true ∧ asset = l ++ [indexName]) := by
  unfold asset? at h
  obtain ⟨p, hp, h⟩ := Except.bind_eq_ok.1 h
  obtain ⟨l, rfl, hclear⟩ := resolve_clear hacyclic FileTree.clear_nil hp
  refine ⟨l, hclear, ?_⟩
  split at h
  · cases h
  · rename_i hcontains
    have hbelow : s.root.parts <+: l := by
      simp only [Path.contains, Path.absolute, Bool.and_eq_true, Bool.not_eq_true',
        Bool.not_eq_false] at hcontains
      exact List.isPrefixOf_iff_prefix.1 hcontains.2
    refine ⟨hbelow, ?_⟩
    obtain ⟨held, hheld, h⟩ := Except.bind_eq_ok.1 h
    split at h
    · obtain rfl := Option.some.inj (Except.ok.inj h)
      obtain ⟨-, hget⟩ := FileTree.lookup_clear hclear (lookup_of_held? hheld)
      exact .inr ⟨by rw [FileTree.isDirectoryAt, hget]; rfl, rfl⟩
    · obtain rfl := Option.some.inj (Except.ok.inj h)
      exact .inl rfl

/-- an answer is made of the bytes of the file that the asset leads to -/
theorem serve_eq_ok (h : s.serve t path asset = .ok r) :
    r = .notFound ∨ ∃ bytes, t.lookup [] (.absolute asset) = .ok (.file bytes) ∧
      (r = .file asset bytes ∨ s.compiled path asset bytes = .ok r) := by
  unfold serve at h
  obtain ⟨held, hheld, h⟩ := Except.bind_eq_ok.1 h
  split at h
  · rename_i bytes
    refine .inr ⟨bytes, lookup_of_held? hheld, ?_⟩
    split at h
    · exact .inr h
    · exact .inl (Except.ok.inj h).symm
  · exact .inl (Except.ok.inj h).symm

theorem isEntry_indexName : FileTree.IsEntry indexName := ⟨by decide, by decide⟩

/-- Without link cycles, all that the server answers with is made of the bytes of a file that, links
followed, stands below its directory, or of what the index of a directory leads to that is a link
itself. -/
theorem respond_below (hacyclic : t.Acyclic) (h : s.respond t (.asset path) = .ok r) :
    r = .notFound ∨ ∃ asset l bytes, t.follow .find [] (.absolute asset) = .ok (.present l) ∧
      t.get? l = some (.file bytes) ∧
      (r = .file asset bytes ∨ s.compiled path asset bytes = .ok r) ∧
      (s.root.parts <+: l ∨ ∃ dir target, asset = dir ++ [indexName] ∧ s.root.parts <+: dir ∧
        t.isDirectoryAt dir = true ∧ t.get? asset = some (.link target)) := by
  obtain ⟨asset?, hasset, h⟩ := Except.bind_eq_ok.1 h
  cases asset? with
  | none => exact .inl (Except.ok.inj h).symm
  | some asset =>
    rcases serve_eq_ok h with hr | ⟨bytes, hlookup, hr⟩
    · exact .inl hr
    refine .inr ⟨asset, ?_⟩
    obtain ⟨l, hclear, hroot, rfl | ⟨hdirectory, rfl⟩⟩ := asset?_below hacyclic hasset
    · obtain ⟨hfollow, hget⟩ := FileTree.lookup_clear hclear hlookup
      exact ⟨asset, bytes, hfollow, hget, hr, .inl hroot⟩
    · by_cases hlink : ∃ target, t.get? (l ++ [indexName]) = some (.link target)
      · obtain ⟨target, htarget⟩ := hlink
        obtain ⟨place, hfollow, hget⟩ := FileTree.present_of_lookup hlookup
        exact ⟨place, bytes, hfollow, hget, hr, .inr ⟨l, target, rfl, hroot, hdirectory, htarget⟩⟩
      · have hindex : t.Clear (l ++ [indexName]) :=
          FileTree.clear_concat.2 ⟨hclear, isEntry_indexName, not_exists.1 hlink⟩
        obtain ⟨hfollow, hget⟩ := FileTree.lookup_clear hindex hlookup
        exact ⟨l ++ [indexName], bytes, hfollow, hget, hr,
          .inl (hroot.trans (List.prefix_append ..))⟩

/-- a directory to serve, with a link to a directory in it and an index that is a link to a file
outside -/
def linkedTree : FileTree :=
  .directory [
    ("root", .directory [
      ("index.html", .link "../secret.txt"),
      ("alias", .link "pages"),
      ("pages", .directory [("index.html", .file [104])])]),
    ("secret.txt", .file [120])]

/-- neither link's target has a link on it -/
theorem acyclic_linkedTree : linkedTree.Acyclic := by
  rintro l ⟨target, dir, name, rest, hl, hname, hreach, heq⟩
  have hend : ∀ l', ¬ linkedTree.Reaches ⟨l', []⟩ ⟨dir, name :: rest⟩ := by
    intro l' hreach
    rcases hreach.cases_head with h | ⟨c, hc, -⟩
    · cases h
    · cases hc
  have hplaces : l ∈ ([["root", "index.html"], ["root", "alias"]] : List Location) :=
    FileTree.mem_linkPlaces hl
  rcases List.mem_pair.1 hplaces with rfl | rfl
  · obtain rfl : ("../secret.txt" : Text) = target := FileTree.link.inj (Option.some.inj hl)
    have hup : linkedTree.advance ⟨["root"], ["..", "secret.txt"]⟩ = some ⟨[], ["secret.txt"]⟩ := by
      decide +kernel
    have hfile : linkedTree.advance ⟨[], ["secret.txt"]⟩ = some ⟨["secret.txt"], []⟩ := by
      decide +kernel
    refine hend _ ((hreach.next (fun h => ?_) hup).next (fun h => ?_) hfile)
    · cases h
      exact hname.2 rfl
    · cases h
      exact absurd heq (by decide)
  · obtain rfl : ("pages" : Text) = target := FileTree.link.inj (Option.some.inj hl)
    have hpages : linkedTree.advance ⟨["root"], ["pages"]⟩ = some ⟨["root", "pages"], []⟩ := by
      decide +kernel
    refine hend _ (hreach.next (fun h => ?_) hpages)
    cases h
    exact absurd heq (by decide)

/-- through a link, up again and through it once more, to the index of the directory it leads to -/
theorem respond_below_alias :
    (⟨.absolute ["root"], {}⟩ : Server).respond linkedTree (.asset "alias/../alias/") =
      .ok (.file ["root", "pages", "index.html"] [104]) ∧
    (Response.file ["root", "pages", "index.html"] [104] = .notFound ∨
      ∃ asset l bytes, linkedTree.follow .find [] (.absolute asset) = .ok (.present l) ∧
        linkedTree.get? l = some (.file bytes) ∧
        (Response.file ["root", "pages", "index.html"] [104] = .file asset bytes ∨
          (⟨.absolute ["root"], {}⟩ : Server).compiled "alias/../alias/" asset bytes =
            .ok (.file ["root", "pages", "index.html"] [104])) ∧
        ([Text.ofString "root"] <+: l ∨ ∃ dir target, asset = dir ++ [indexName] ∧
          [Text.ofString "root"] <+: dir ∧ linkedTree.isDirectoryAt dir = true ∧
          linkedTree.get? asset = some (.link target))) := by
  have hresponse :
      (⟨.absolute ["root"], {}⟩ : Server).respond linkedTree (.asset "alias/../alias/") =
        .ok (.file ["root", "pages", "index.html"] [104]) := by
    decide +kernel
  exact ⟨hresponse, respond_below acyclic_linkedTree hresponse⟩

/-- an index that is a link to a file outside is served -/
theorem respond_outside :
    ¬ ∀ (s : Server) (t : FileTree) (path : Text) (asset : Location) (bytes : List UInt8),
      t.Acyclic → s.respond t (.asset path) = .ok (.file asset bytes) →
      ∃ l, t.follow .find [] (.absolute asset) = .ok (.present l) ∧ s.root.parts <+: l := by
  intro h
  have hresponse : (⟨.absolute ["root"], {}⟩ : Server).respond linkedTree (.asset "") =
      .ok (.file ["root", "index.html"] [120]) := by
    decide +kernel
  have hfollow :
      linkedTree.follow .find [] (.absolute ["root", "index.html"]) =
        .ok (.present ["secret.txt"]) := by
    decide +kernel
  obtain ⟨l, hl, hbelow⟩ := h _ _ _ _ _ acyclic_linkedTree hresponse
  rw [hfollow] at hl
  obtain rfl : (["secret.txt"] : Location) = l := by simpa using hl
  revert hbelow
  decide +kernel

end Relocation.Server
