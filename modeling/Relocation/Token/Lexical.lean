import Relocation.Token
import Relocation.Text.WordClass

/-!
# The lexical grammar

Each function measures how far one kind of lexeme reaches from the front of a text, as a number of
code points.  The ones that look for a closing delimiter give `none` when the text ends, or the line
does where that counts, before it.
-/

namespace Relocation.Lexical

/-- blanks other than line terminators -/
def isWhitespace (c : CodePoint) : Bool :=
  [0x09, 0x0B, 0x0C, 0x20, 0xA0, 0x1680, 0x202F, 0x205F, 0x3000, 0xFEFF].contains c.value ||
    (0x2000 ≤ c.value && c.value ≤ 0x200A)

/-- characters that may begin a name -/
def isNameStart (c : CodePoint) : Bool :=
  (c.isWord && !c.isDecimal) || c = .char '$'

/-- characters that may continue a name -/
def isNamePart (c : CodePoint) : Bool :=
  c.isWord || c = .char '$' || c = .char '\u200c' || c = .char '\u200d'

/-- characters that a regular expression's flags are made of -/
def isFlag (c : CodePoint) : Bool :=
  c.isWord || c = .char '$'

/-- how many characters in front are of a class -/
def runLength (p : CodePoint → Bool) (t : Text) : Nat := (t.takeWhile p).length

/-- the rest of the line, its terminator left out -/
def lineLength (t : Text) : Nat := runLength (fun c => !c.isLineTerminator) t

/-! ## comments -/

/-- behind the opening of a block comment: up to and with its end -/
def commentLength? : Text → Option Nat
  | [] => none
  | .char '*' :: .char '/' :: _ => some 2
  | _ :: r => (commentLength? r).map (· + 1)

/-- does an opening brace follow, with only blanks, tabs and one-line block comments before it?
`inComment` says that the text begins inside such a comment. -/
def leadsToBrace : (inComment : Bool) → Text → Bool
  | _, [] => false
  | true, .char '*' :: .char '/' :: r => leadsToBrace false r
  | true, c :: r => c != .char '\n' && c != .char '\r' && leadsToBrace true r
  | false, .char '/' :: .char '*' :: r => leadsToBrace true r
  | false, c :: r => c = .char '\x7b' || ((c = .char ' ' || c = .char '\t') && leadsToBrace false r)

/-! ## literals -/

/-- behind a string's opening quote: up to and with the closing one -/
def stringLength? (quote : CodePoint) : Text → Option Nat
  | [] => none
  | .char '\\' :: .char '\r' :: .char '\n' :: r => (stringLength? quote r).map (· + 3)
  | .char '\\' :: _ :: r => (stringLength? quote r).map (· + 2)
  | c :: r =>
    if c = quote then some 1
    else if c = .char '\n' || c = .char '\r' then none
    else (stringLength? quote r).map (· + 1)

/-- behind a template's opening delimiter: up to and with the closing one, and whether that opens a
substitution -/
def templateLength? : Text → Option (Nat × Bool)
  | [] => none
  | .char '\\' :: _ :: r => (templateLength? r).map fun (n, o) => (n + 2, o)
  | .char '$' :: .char '\x7b' :: _ => some (2, true)
  | c :: r =>
    if c = .char '\x60' then some (1, false) else (templateLength? r).map fun (n, o) => (n + 1, o)

/-- behind a regular expression's opening slash: up to and with its flags.  A slash inside square
brackets, or behind a backslash, does not close it. -/
def regexLength? (inClass : Bool) : Text → Option Nat
  | [] => none
  | .char '\\' :: _ :: r => (regexLength? inClass r).map (· + 2)
  | c :: r =>
    if c.isLineTerminator then none
    else if c = .char '[' then (regexLength? true r).map (· + 1)
    else if c = .char ']' then (regexLength? false r).map (· + 1)
    else if c = .char '/' && !inClass then some (1 + runLength isFlag r)
    else (regexLength? inClass r).map (· + 1)

/-! ## numbers -/

def isDecimalPart (c : CodePoint) : Bool := c.isDecimal || c = .char '_'

def isHexPart (c : CodePoint) : Bool := c.isHex || c.isDecimal || c = .char '_'

def isOctalPart (c : CodePoint) : Bool := c.isOctal || c = .char '_'

def isBinaryPart (c : CodePoint) : Bool := c = .char '0' || c = .char '1' || c = .char '_'

/-- the class of digits that a letter behind a leading zero calls for -/
def radixPart? (c : CodePoint) : Option (CodePoint → Bool) :=
  if c = .char 'x' || c = .char 'X' then some isHexPart
  else if c = .char 'o' || c = .char 'O' then some isOctalPart
  else if c = .char 'b' || c = .char 'B' then some isBinaryPart
  else none

/-- one if the character comes first -/
def optionalLength (p : CodePoint → Bool) (t : Text) : Nat :=
  match t with
  | c :: _ => if p c then 1 else 0
  | [] => 0

/-- a number with a radix letter, zero if there is none with at least one digit -/
def radixLength : Text → Nat
  | .char '0' :: c :: r =>
    match radixPart? c with
    | some p => if runLength p r = 0 then 0 else 2 + runLength p r
    | none => 0
  | _ => 0

/-- an exponent with at least one digit, else zero -/
def exponentLength : Text → Nat
  | c :: r =>
    if c = .char 'e' || c = .char 'E' then
      let sign := optionalLength (fun c => c = .char '+' || c = .char '-') r
      match r.drop sign with
      | d :: q => if d.isDecimal then 2 + sign + runLength isDecimalPart q else 0
      | [] => 0
    else 0
  | [] => 0

/-- digits with an optional fraction, or a fraction alone; zero if the text begins with neither -/
def mantissaLength : Text → Nat
  | .char '.' :: d :: r => if d.isDecimal then 2 + runLength isDecimalPart r else 0
  | c :: r =>
    if c.isDecimal then
      let whole := runLength isDecimalPart r
      let point := optionalLength (· = .char '.') (r.drop whole)
      1 + whole + point +
        (if point = 0 then 0 else runLength isDecimalPart (r.drop (whole + point)))
    else 0
  | [] => 0

/-- the number in front, the suffix `n` of big integers with it; zero if there is none -/
def numberLength (t : Text) : Nat :=
  let radix := radixLength t
  let mantissa := mantissaLength t
  let body := if radix = 0 then mantissa + exponentLength (t.drop mantissa) else radix
  if body = 0 then 0 else body + optionalLength (· = .char 'n') (t.drop body)

/-! ## punctuators -/

/-- every punctuator but the ones that begin with a slash, longer ones first -/
def punctuators : List Text :=
  [">>>=", "...", "===", "!==", "**=", "<<=", ">>=", ">>>", "&&=", "||=", "??=", "=>", "==", "!=",
    "<=", ">=", "&&", "||", "??", "?.", "++", "--", "+=", "-=", "*=", "%=", "&=", "|=", "^=", "**",
    "<<", ">>", ";", ",", "<", ">", "+", "-", "*", "%", "&", "|", "^", "!", "~", "?", ":", "=", ".",
    "@"].map Text.ofString

/-- the longest punctuator in front.  A question mark and a point before a digit are a conditional
and a number, so only the question mark is taken. -/
def punctuatorLength? (t : Text) : Option Nat :=
  (punctuators.find? (·.isPrefixOf t)).map fun p =>
    if p = Text.ofString "?." && (t.drop 2).head?.any (·.isDigitValued) then 1 else p.length

end Relocation.Lexical
