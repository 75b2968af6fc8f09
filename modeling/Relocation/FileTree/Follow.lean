import Relocation.Failure
import Relocation.FileTree
import Relocation.Text.Utf8

/-!
# Following paths

Where a path leads when the links on it are followed one after another, the way an operating system
does it: a link stands for the names of its target, `..` goes up from where the way has led so far,
and only so many links are followed.  A slash at the end of a target asks for a directory, so a file
can never be written there.
-/

namespace Relocation.FileTree

/-- what a path is followed for -/
inductive Aim
  /-- to find what is there -/
  | find
  /-- to write a file, which need not be there yet -/
  | write
  deriving DecidableEq

/-- where a path ends: at a place, or at a name that a directory does not have yet -/
inductive Spot
  | present (l : Location)
  | absent (l : Location)
  deriving DecidableEq

/-- a link that stands in the way: the directory it is in, its target, and the names that come after
it -/
structure Detour where
  directory : Location
  target : Text
  rest : List Text

/-- longest name, in bytes -/
def nameLimit : Nat := 255

/-- paths with as many bytes or more are not followed -/
def pathLimit : Nat := 4096

/-- how many links are followed on one path -/
def linkLimit : Nat := 40

def isNameTooLong (name : Text) : Bool := nameLimit < name.utf8Length

def isPathTooLong (p : Path) : Bool := pathLimit ≤ p.display.utf8Length

/-- do only slashes come after a name?  `rest` is what they separate -/
def endsInSlash (rest : List Text) : Bool := rest ≠ [] && rest.all (· = [])

/-- goes on from `here` up to the end or to the first link; a name that a slash ends is no name for
a file, whatever it stands for -/
def stride (t : FileTree) (aim : Aim) (here : Location) : List Text →
    Except FileFault (Spot ⊕ Detour)
  | [] => .ok (.inl (.present here))
  | name :: r =>
    if !t.isDirectoryAt here then .error .notDirectory
    else if Path.isIdle name then t.stride aim here r
    else if name = Path.up then t.stride aim here.dropLast r
    else if aim = .write && endsInSlash r then .error .isDirectory
    else if isNameTooLong name then .error .nameTooLong
    else match t.get? (here ++ [name]) with
      | none => if r = [] then .ok (.inl (.absent (here ++ [name]))) else .error .missing
      | some (.link target) => .ok (.inr ⟨here, target, r⟩)
      | some _ => t.stride aim (here ++ [name]) r

namespace Detour

/-- where the target of the link starts from -/
def start (d : Detour) : Location := if (Path.ofText d.target).isAbsolute then [] else d.directory

/-- the names of the target, then those after the link; a slash at the end of the target asks for a
directory -/
def names (d : Detour) : List Text := Text.splitOn (.char '/') d.target ++ d.rest

end Detour

/-- follows up to `links` links -/
def followNames (t : FileTree) (aim : Aim) (links : Nat) (here : Location) (names : List Text) :
    Except FileFault Spot :=
  match t.stride aim here names with
  | .error f => .error f
  | .ok (.inl spot) => .ok spot
  | .ok (.inr detour) =>
    match links with
    | 0 => .error .tooManyLinks
    | links + 1 => t.followNames aim links detour.start detour.names

/-- where a path starts, seen from a working directory -/
def startOf (cwd : Location) (p : Path) : Location := if p.isAbsolute then [] else cwd

/-- where a path leads -/
def follow (t : FileTree) (aim : Aim) (cwd : Location) (p : Path) : Except FileFault Spot :=
  if isPathTooLong p then .error .nameTooLong
  else t.followNames aim linkLimit (startOf cwd p) p.parts

/-- what a path leads to -/
def lookup (t : FileTree) (cwd : Location) (p : Path) : Except FileFault FileTree :=
  match t.follow .find cwd p with
  | .error f => .error f
  | .ok (.absent _) => .error .missing
  | .ok (.present l) =>
    match t.get? l with
    | some c => .ok c
    | none => .error .missing

end Relocation.FileTree
