import Relocation.Text.WordClass

/-!
# Integers in text

An integer may have blanks around it and a sign in front, its digits may be of any script, and
single low lines may stand between them.
-/

namespace Relocation.Text

def blankRanges : List (Nat × Nat) :=
  [(0x09, 0x0D), (0x20, 0x20), (0x85, 0x85), (0xA0, 0xA0), (0x1680, 0x1680), (0x2000, 0x200A),
   (0x2028, 0x2029), (0x202F, 0x202F), (0x205F, 0x205F), (0x3000, 0x3000)]

/-- the text without the blanks around it -/
def trimBlanks (t : Text) : Text :=
  let blank := CodePoint.inRanges blankRanges
  ((t.dropWhile blank).reverse.dropWhile blank).reverse

/-- the values of a number's digits, if that is what the text is made of -/
def digits? : Text → Option (List Nat)
  | [] => none
  | [c] => if c.isDecimal then some [c.decimalValue] else none
  | c :: .char '_' :: r => if c.isDecimal then (digits? r).map (c.decimalValue :: ·) else none
  | c :: d :: r => if c.isDecimal then (digits? (d :: r)).map (c.decimalValue :: ·) else none

/-- numbers with more digits are not read -/
def digitLimit : Nat := 4300

def toNat? (t : Text) : Option Nat :=
  match t.digits? with
  | some ds => if ds.length ≤ digitLimit then some (ds.foldl (fun n d => n * 10 + d) 0) else none
  | none => none

/-- the integer that a text stands for -/
def toInt? (t : Text) : Option Int :=
  match t.trimBlanks with
  | .char '-' :: r => (toNat? r).map fun n => -(n : Int)
  | .char '+' :: r => (toNat? r).map Int.ofNat
  | r => (toNat? r).map Int.ofNat

end Relocation.Text
