import Relocation.FileTree

/-!
# Resolving paths

The place that a path names when all links in it are replaced by what they stand for.  Names that
the tree does not have are kept, so a path resolves whether or not there is something at its end.  A
link that leads back to itself cannot be replaced: then what is left of the path is kept as it is.
-/

namespace Relocation.FileTree

/-- a resolved path, and whether all its links could be replaced -/
structure Resolved where
  path : Path
  complete : Bool

/-- goes on with names that are left over; an empty name before them is a slash, with which they
start from the root -/
def resume (p : Path) (names : List Text) : Path :=
  (p.join (Path.ofText (Text.join "/" names))).normalize

/-- resolves names from a place on; `replace` resolves the target of a link that stands at a
place -/
def resolveNames (t : FileTree) (replace : Location → Text → Resolved) (here : Location) :
    List Text → Resolved
  | [] => ⟨.absolute here, true⟩
  | name :: r =>
    if Path.isIdle name then t.resolveNames replace here r
    else if name = Path.up then t.resolveNames replace here.dropLast r
    else match t.get? (here ++ [name]) with
      | some (.link target) =>
        let resolved := replace (here ++ [name]) target
        if resolved.complete then t.resolveNames replace resolved.path.parts r
        else ⟨resume resolved.path r, false⟩
      | _ => t.resolveNames replace (here ++ [name]) r

/-- resolves the target of the link at `l`; the targets of the links at `pending` are being resolved
already -/
def resolveLink (t : FileTree) :
    (depth : Nat) → (pending : List Location) → (l : Location) → (target : Text) → Resolved
  | 0, _, l, _ => ⟨.absolute l, false⟩
  | depth + 1, pending, l, target =>
    if pending.contains l then ⟨.absolute l, false⟩
    else
      t.resolveNames (t.resolveLink depth (l :: pending))
        (if (Path.ofText target).isAbsolute then [] else l.dropLast)
          (Text.splitOn (.char '/') target)

/-- what a path resolves to; links inside links inside links are never more than the links of the
tree -/
def resolve (t : FileTree) (cwd : Location) (p : Path) : Resolved :=
  t.resolveNames (t.resolveLink (t.linkCount + 1) []) (if p.isAbsolute then [] else cwd) p.parts

end Relocation.FileTree
