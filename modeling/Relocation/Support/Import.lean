import Relocation.Artifact
import Relocation.Tree.Printer
import Relocation.Tree.Reader

/-!
# Importing the support module

Compiled modules import the block class, once and in front of everything else.
-/

namespace Relocation.Support.Import

/-- `import { Class } from "specifier";` -/
def text (options : Options) : Text :=
  Text.ofString "import \x7b " ++ options.classCode ++ Text.ofString " \x7d from " ++
    Json.optionalLiteral options.supportSpecifier ++ Text.ofString ";"

def items (options : Options) : Except Failure (List Item) := Program.readFragment (text options)

/-- do the items begin with the import of the block class, and nothing else, from the support
module? -/
def leads (options : Options) : List Item → Except Failure Bool
  | head :: names :: word :: specifier :: _ =>
    let named := match names.groupItems? .brace with
      | some [n] => options.isClass n
      | _ => false
    if head.isName "import" && named && word.isName "from" then
      match specifier.stringText? with
      | some t => do return some (← Literal.value t) = options.supportSpecifier
      | none => .ok false
    else .ok false
  | _ => .ok false

/-- does the import stand somewhere in the sequence? -/
def isPresent (options : Options) : List Item → Except Failure Bool
  | [] => .ok false
  | i :: r => do
    if ← leads options (i :: r) then return true
    isPresent options r

end Relocation.Support.Import

namespace Relocation.Program

/-- the program with the import in front and its own first item on a line of its own; nothing if
the import is there already -/
def withSupport? (p : Program) (options : Options) : Except Failure (Option Program) := do
  if ← Support.Import.isPresent options p.items then return none
  let support ← Support.Import.items options
  let items := match p.items with
    | [] => []
    | i :: r => i.onNewLine :: r
  return some ⟨support ++ items, none⟩

/-- the program with the import, however it got there -/
def withSupport (p : Program) (options : Options) : Except Failure Program := do
  return (← p.withSupport? options).getD p

end Relocation.Program
