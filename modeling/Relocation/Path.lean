import Relocation.Text

/-!
# Paths

A path is how it starts and the names on it.  Empty names and `.` say nothing and are dropped when a
path is read; `..` is kept, because what it means depends on the links in front of it.
-/

namespace Relocation

structure Path where
  /-- the slashes it starts with: none, one, or exactly two -/
  root : Text := []
  parts : List Text := []
  deriving DecidableEq

namespace Path

/-- the name that goes up -/
def up : Text := ".."

/-- does a name say nothing? -/
def isIdle (name : Text) : Bool := name = [] || name = Text.ofString "."

/-- the slashes that count at the start of a text -/
def rootOf : Text → Text
  | .char '/' :: .char '/' :: .char '/' :: _ => "/"
  | .char '/' :: .char '/' :: _ => "//"
  | .char '/' :: _ => "/"
  | _ => []

def ofText (t : Text) : Path := ⟨rootOf t, (Text.splitOn (.char '/') t).filter (!isIdle ·)⟩

def isAbsolute (p : Path) : Bool := p.root ≠ []

def display (p : Path) : Text :=
  if p.root = [] && p.parts = [] then "." else p.root ++ Text.join "/" p.parts

/-- `q` as seen from `p` -/
def join (p q : Path) : Path := if q.isAbsolute then q else { p with parts := p.parts ++ q.parts }

def child (p : Path) (name : Text) : Path := { p with parts := p.parts ++ [name] }

/-- the path from the root through names -/
def absolute (names : List Text) : Path := ⟨"/", names⟩

/-- `..` removes the name in front of it -/
def normalize (p : Path) : Path :=
  { p with parts := p.parts.foldl (fun l name => if name = up then l.dropLast else l ++ [name]) [] }

/-- does a path start with all of `p`? -/
def contains (p q : Path) : Bool := p.root = q.root && p.parts.isPrefixOf q.parts

/-- no file system takes a null character in a path -/
def hasNull (p : Path) : Bool := p.parts.any (·.contains (.char '\x00'))

/-- the end of a name from its last dot on; a dot at either end of the name does not count -/
def suffix (name : Text) : Text :=
  let rest := name.reverse.takeWhile (· ≠ .char '.')
  if rest = [] || name.length ≤ rest.length + 1 then [] else .char '.' :: rest.reverse

end Path

end Relocation
