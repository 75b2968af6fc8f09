import Relocation.FileTree.Follow

/-!
# Reading and writing files

What a program can do with paths: read a file, write a file, make directories.
-/

namespace Relocation.FileTree

/-- the bytes of the file that a path leads to -/
def read (t : FileTree) (cwd : Location) (p : Path) : Except FileFault (List UInt8) :=
  match t.lookup cwd p with
  | .error f => .error f
  | .ok (.file bytes) => .ok bytes
  | .ok (.link _) => .error .missing
  | .ok (.directory _) => .error .isDirectory

/-- the place of the file that writing to a path makes or overwrites -/
def writeTarget (t : FileTree) (cwd : Location) (p : Path) : Except FileFault Location :=
  match t.follow .write cwd p with
  | .error f => .error f
  | .ok (.absent l) => .ok l
  | .ok (.present l) => if t.isDirectoryAt l then .error .isDirectory else .ok l

/-- a link at the end of the path is followed, also to a file that is not there yet -/
def write (t : FileTree) (cwd : Location) (p : Path) (bytes : List UInt8) :
    Except FileFault FileTree :=
  match t.writeTarget cwd p with
  | .error f => .error f
  | .ok l => .ok (t.put (.file bytes) l)

/-- makes the directory that a path names; its last name is not followed -/
def makeDirectory (t : FileTree) (cwd : Location) (p : Path) : Except FileFault FileTree :=
  if isPathTooLong p then .error .nameTooLong
  else match p.parts.getLast? with
    | none => .error .exists
    | some name =>
      match t.followNames .find linkLimit (startOf cwd p) p.parts.dropLast with
      | .error f => .error f
      | .ok (.absent _) => .error .missing
      | .ok (.present l) =>
        if !t.isDirectoryAt l then .error .notDirectory
        else if name = Path.up then .error .exists
        else if isNameTooLong name then .error .nameTooLong
        else if (t.get? (l ++ [name])).isSome then .error .exists
        else .ok (t.put (.directory []) (l ++ [name]))

/-- does a path lead to a directory? -/
def isDirectoryPath (t : FileTree) (cwd : Location) (p : Path) : Bool :=
  match t.lookup cwd p with
  | .ok c => c.isDirectory
  | .error _ => false

/-- a tree in which a directory was asked for: no fault if there is one -/
def orDirectory (t : FileTree) (cwd : Location) (p : Path) (f : FileFault) :
    FileTree × Option FileFault :=
  if t.isDirectoryPath cwd p then (t, none) else (t, some f)

/-- makes the directory of a path whose names are given from the last to the first, and those above
it that are missing -/
def makeDirectoriesFrom (t : FileTree) (cwd : Location) (root : Text) : List Text →
    FileTree × Option FileFault
  | [] => t.orDirectory cwd ⟨root, []⟩ .exists
  | name :: r =>
    let p : Path := ⟨root, (name :: r).reverse⟩
    match t.makeDirectory cwd p with
    | .ok t' => (t', none)
    | .error .missing =>
      match t.makeDirectoriesFrom cwd root r with
      | (t', some f) => (t', some f)
      | (t', none) =>
        match t'.makeDirectory cwd p with
        | .ok t'' => (t'', none)
        | .error .missing => (t', some .missing)
        | .error f => t'.orDirectory cwd p f
    | .error f => t.orDirectory cwd p f

/-- makes the directory of a path with all that is missing above it; there may be one already -/
def makeDirectories (t : FileTree) (cwd : Location) (p : Path) : FileTree × Option FileFault :=
  t.makeDirectoriesFrom cwd p.root p.parts.reverse

end Relocation.FileTree
