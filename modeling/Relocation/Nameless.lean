import Relocation.Artifact
import Relocation.Tree.Printer

/-!
# Code whose class has no name

When the name of the block class was left out, code is compiled as usual, but what mentions the
class cannot be printed: the name is no text.  The first to be noticed is a block that is created;
without one, the first call of the class.
-/

namespace Relocation

namespace Piece

/-- a name that was left out; no name in a source is spelled like that -/
def isNameless (p : Piece) : Bool := p.kind = .name && p.text = Json.leftOut

/-- does an opening bracket stand behind a name that was left out? -/
def createNameless : List Piece → Bool
  | p :: q :: r => (p.isNameless && q.kind = .opener) || createNameless (q :: r)
  | _ => false

/-- how many texts are printed before the first name that was left out; what separates two pieces is
a text of its own -/
def textsBeforeNameless? (before : Option Piece) : List Piece → Option Nat
  | [] => none
  | p :: r =>
    let gap := if before.any fun b => b.separator p ≠ [] then 1 else 0
    if p.isNameless then some gap else (textsBeforeNameless? (some p) r).map (gap + 1 + ·)

end Piece

namespace Program

/-- the canonical text of a program, unless it mentions a class without a name -/
def printFor (p : Program) (options : Options) : Except Failure Text :=
  match options.className with
  | some _ => .ok p.print
  | none =>
    let pieces := Item.piecesFrom 0 0 p.items
    if Piece.createNameless pieces then .error .namelessBlock
    else match Piece.textsBeforeNameless? none pieces with
      | some place => .error (.namelessCall place)
      | none => .ok p.print

end Program

end Relocation
