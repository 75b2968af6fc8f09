import Relocation.Failure
import Relocation.Text.WordClass

/-!
# Values of string literals

A literal's escapes are read once from left to right, so what one escape stands for never begins
another.  The value is a sequence of UTF-16 units: halves of surrogate pairs that all find their
partner are joined, otherwise the halves stay as they are.
-/

namespace Relocation.Literal

/-- the code point that a surrogate pair stands for -/
def pairValue (high low : Fin 2048) : CodePoint :=
  (CodePoint.ofNat? (0x10000 + high.val * 0x400 + (low.val - 0x400))).getD (.surrogate high)

/-- joins surrogate pairs; nothing if some surrogate has no partner -/
def joinPairs? : Text → Option Text
  | [] => some []
  | .char c :: r => (joinPairs? r).map (.char c :: ·)
  | .surrogate h :: .surrogate l :: r =>
    if (CodePoint.surrogate h).isHigh && (CodePoint.surrogate l).isLow then
      (joinPairs? r).map (pairValue h l :: ·)
    else none
  | .surrogate _ :: _ => none

/-- the number that hexadecimal digits write -/
def hexNumber (digits : Text) : Nat := digits.foldl (fun n c => n * 16 + c.hexValue) 0

/-- the number that octal digits write -/
def octalNumber (digits : Text) : Nat := digits.foldl (fun n c => n * 8 + (c.value - 0x30)) 0

/-- what a letter behind a backslash stands for -/
def letterEscape (c : CodePoint) : CodePoint :=
  if c = .char 'b' then .char '\x08'
  else if c = .char 'f' then .char '\x0c'
  else if c = .char 'n' then .char '\n'
  else if c = .char 'r' then .char '\r'
  else if c = .char 't' then .char '\t'
  else if c = .char 'v' then .char '\x0b'
  else c

/-- the digits of an octal escape: up to three if the first is below four, else up to two -/
def octalDigits (c : CodePoint) (r : Text) : Text :=
  c :: (r.take (if c.value < 0x34 then 2 else 1)).takeWhile CodePoint.isOctal

/-- exactly `n` hexadecimal digits in front -/
def hexDigits? (n : Nat) (r : Text) : Option Text :=
  let digits := (r.take n).takeWhile CodePoint.isHex
  if digits.length = n then some digits else none

/-- digits in braces in front, without the braces -/
def bracedDigits? : Text → Option Text
  | .char '\x7b' :: r =>
    let digits := r.takeWhile CodePoint.isHex
    if digits ≠ [] ∧ (r.drop digits.length).head? = some (.char '\x7d') then some digits else none
  | _ => none

/-- how an escape can be refused -/
inductive EscapeFault
  | outOfRange
  | malformed
  deriving DecidableEq

/-- the code point with a number given by an escape -/
def codePoint (n : Nat) : Except EscapeFault Text :=
  match CodePoint.ofNat? n with
  | some c => .ok [c]
  | none => .error .outOfRange

/-- what a backslash before the text stands for, and how many characters of the text belong to the
escape.  A line terminator stands for nothing, and a character without a meaning of its own for
itself. -/
def escape : Text → Except EscapeFault (Text × Nat)
  | [] => .ok ([.char '\\'], 0)
  | .char '\r' :: .char '\n' :: _ => .ok ([], 2)
  | c :: r =>
    if c.isLineTerminator then .ok ([], 1)
    else if c = .char 'x' then
      match hexDigits? 2 r with
      | some digits => return (← codePoint (hexNumber digits), 3)
      | none => .error .malformed
    else if c = .char 'u' then
      match bracedDigits? r, hexDigits? 4 r with
      | some digits, _ => return (← codePoint (hexNumber digits), digits.length + 3)
      | none, some digits => return (← codePoint (hexNumber digits), 5)
      | none, none => .error .malformed
    else if c.isOctal then
      let digits := octalDigits c r
      return (← codePoint (octalNumber digits), digits.length)
    else .ok ([letterEscape c], 1)

/-- the characters and escapes of a literal's body, the first `skip` characters left out -/
def units : (skip : Nat) → Text → Except EscapeFault Text
  | _, [] => .ok []
  | skip + 1, _ :: r => units skip r
  | 0, c :: r =>
    if c = .char '\\' then do
      let (value, n) ← escape r
      return value ++ (← units n r)
    else return c :: (← units 0 r)

/-- the value of a literal, quotes included in the literal -/
def value (literal : Text) : Except Failure Text :=
  let body := literal.tail.dropLast
  if !body.contains (.char '\\') then .ok body
  else match units 0 body with
    | .ok value => .ok ((joinPairs? value).getD value)
    | .error .outOfRange => .error (.source ⟨.codePointOutOfRange literal, none⟩)
    | .error .malformed => .error (.source ⟨.malformedEscape literal, none⟩)

end Relocation.Literal
