import Relocation.Path

/-!
# File trees

A file system as a value: files with their bytes, symbolic links with their targets, directories
with named entries.  A place in a tree is given by the names to go through from the root; a place is
a fact about the tree, no link is followed on the way to it.
-/

namespace Relocation

inductive FileTree
  | file (bytes : List UInt8)
  | link (target : Text)
  | directory (entries : List (Text × FileTree))

/-- the names to go through from the root of a tree -/
abbrev Location := List Text

namespace FileTree

/-- the entry of a directory under a name -/
def child? (name : Text) : FileTree → Option FileTree
  | .directory entries => (entries.find? (·.1 = name)).map (·.2)
  | _ => none

/-- what stands at a place -/
def get? (t : FileTree) : Location → Option FileTree
  | [] => some t
  | name :: r =>
    match t.child? name with
    | some c => c.get? r
    | none => none

/-- entries with one of them replaced, or added at the end -/
def putEntry (name : Text) (new : FileTree) : List (Text × FileTree) → List (Text × FileTree)
  | [] => [(name, new)]
  | e :: r => if e.1 = name then (name, new) :: r else e :: putEntry name new r

/-- puts something at a place; directories that are missing on the way are made -/
def put (t : FileTree) (new : FileTree) : Location → FileTree
  | [] => new
  | name :: r =>
    match t with
    | .directory entries =>
      .directory (putEntry name (((t.child? name).getD (.directory [])).put new r) entries)
    | t => t

def isDirectory : FileTree → Bool
  | .directory _ => true
  | _ => false

/-- does a directory stand at a place? -/
def isDirectoryAt (t : FileTree) (l : Location) : Bool :=
  match t.get? l with
  | some c => c.isDirectory
  | none => false

mutual
/-- the number of links in a tree -/
def linkCount : FileTree → Nat
  | .file _ => 0
  | .link _ => 1
  | .directory entries => linkCountAll entries

def linkCountAll : List (Text × FileTree) → Nat
  | [] => 0
  | (_, t) :: r => linkCount t + linkCountAll r
end

mutual
/-- the places of the files and links in a tree that stands at a place -/
def leaves (here : Location) : FileTree → List Location
  | .directory entries => leavesAll here entries
  | _ => [here]

def leavesAll (here : Location) : List (Text × FileTree) → List Location
  | [] => []
  | (name, t) :: r => leaves (here ++ [name]) t ++ leavesAll here r
end

end FileTree

end Relocation
