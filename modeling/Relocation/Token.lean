import Relocation.Text

/-!
# Positions and tokens

A position is an offset with the line and column that a reader would count, both from one.  CR LF is
one line terminator; LF, CR, U+2028 and U+2029 are one each.
-/

namespace Relocation

namespace CodePoint

/-- LF, CR, line separator or paragraph separator -/
def isLineTerminator (c : CodePoint) : Bool :=
  c = .char '\n' || c = .char '\r' || c = .char '\u2028' || c = .char '\u2029'

end CodePoint

structure Position where
  offset : Nat
  line : Nat
  column : Nat
  deriving DecidableEq

namespace Position

/-- where every text begins -/
def start : Position := ⟨0, 1, 1⟩

/-- the position behind one more character of the same line -/
def right (p : Position) : Position := ⟨p.offset + 1, p.line, p.column + 1⟩

/-- the position behind a line terminator of `width` code points -/
def nextLine (p : Position) (width : Nat) : Position := ⟨p.offset + width, p.line + 1, 1⟩

/-- the position behind a text that begins at `p` -/
def advance (p : Position) : Text → Position
  | [] => p
  | .char '\r' :: .char '\n' :: r => (p.nextLine 2).advance r
  | c :: r => (if c.isLineTerminator then p.nextLine 1 else p.right).advance r

end Position

/-- the classes of tokens; a template literal without substitutions is one token, any other is cut
at its substitutions into a head, middles and a tail -/
inductive Token.Kind
  | name
  | number
  | string
  | regex
  | punct
  | openParen
  | closeParen
  | openSquare
  | closeSquare
  | openBrace
  | closeBrace
  | module
  | template
  | templateHead
  | templateMiddle
  | templateTail
  deriving DecidableEq

structure Token where
  kind : Token.Kind
  text : Text
  start : Position
  stop : Position

end Relocation
