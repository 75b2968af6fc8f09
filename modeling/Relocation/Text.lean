/-!
# Code points and texts

A text is a list of code points.  A code point is a Unicode scalar value or one half of a surrogate
pair: halves have to be carried along because the value of a string literal may hold them.  Every
length and offset counts code points.
-/

namespace Relocation

/-- a scalar value, or the surrogate `0xD800 + n` -/
inductive CodePoint
  | char (c : Char)
  | surrogate (n : Fin 2048)
  deriving DecidableEq

namespace CodePoint

/-- the number of the code point -/
def value : CodePoint → Nat
  | .char c => c.toNat
  | .surrogate n => 0xD800 + n.val

/-- the code point with a given number, if there is one -/
def ofNat? (n : Nat) : Option CodePoint :=
  if h : n.isValidChar then some (.char ⟨n.toUInt32, by
    have hn : n < 4294967296 := by rcases h with h | h <;> omega
    simpa [UInt32.isValidChar, Nat.mod_eq_of_lt hn] using h⟩)
  else if h : 0xD800 ≤ n ∧ n < 0xE000 then some (.surrogate ⟨n - 0xD800, by omega⟩)
  else none

/-- first half of a surrogate pair -/
def isHigh : CodePoint → Bool
  | .char _ => false
  | .surrogate n => n.val < 1024

/-- second half of a surrogate pair -/
def isLow : CodePoint → Bool
  | .char _ => false
  | .surrogate n => 1024 ≤ n.val

def isScalar : CodePoint → Bool
  | .char _ => true
  | .surrogate _ => false

def toChar? : CodePoint → Option Char
  | .char c => some c
  | .surrogate _ => none

/-- does the number of the code point lie in one of the ranges (both ends included)? -/
def inRanges (ranges : List (Nat × Nat)) (c : CodePoint) : Bool :=
  ranges.any fun r => r.1 ≤ c.value && c.value ≤ r.2

end CodePoint

abbrev Text := List CodePoint

namespace Text

def ofString (s : String) : Text := s.toList.map CodePoint.char

instance : Coe String Text := ⟨ofString⟩

/-- decimal digits of a number -/
def ofNat (n : Nat) : Text := ofString (toString n)

def ofInt (n : Int) : Text := ofString (toString n)

/-- the text as a string, unless it holds a surrogate -/
def toString? (t : Text) : Option String := (t.mapM CodePoint.toChar?).map String.ofList

/-- the parts between the separators, one more than there are separators -/
def splitOn (sep : CodePoint) : Text → List Text
  | [] => [[]]
  | c :: r =>
    match splitOn sep r with
    | [] => [[c]]
    | p :: ps => if c = sep then [] :: p :: ps else (c :: p) :: ps

/-- the parts put together again, with a separator between neighbours -/
def join (sep : Text) : List Text → Text
  | [] => []
  | [p] => p
  | p :: q :: r => p ++ sep ++ join sep (q :: r)

/-- the text before the first separator and, if there is one, the text after it -/
def cut (sep : CodePoint) : Text → Text × Option Text
  | [] => ([], none)
  | c :: r => if c = sep then ([], some r) else ((c :: (cut sep r).1), (cut sep r).2)

end Text

end Relocation
