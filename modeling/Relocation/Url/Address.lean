import Relocation.Text.WordClass

/-!
# Addresses of hosts

How internet addresses are spelled: four decimal numbers between dots in version 4; eight groups of
hexadecimal digits between colons in version 6, where a double colon stands for one or more groups
of zeros and an address of version 4 for the last two groups.
-/

namespace Relocation.Url.Address

/-- decimal digit, ASCII only -/
def isDigit (c : CodePoint) : Bool := 0x30 ≤ c.value && c.value ≤ 0x39

/-- a decimal number below 256, without zeros in front -/
def isOctet (t : Text) : Bool :=
  t.all isDigit && 0 < t.length && t.length ≤ 3 && (t.length = 1 || t.head? ≠ some (.char '0')) &&
    t.foldl (fun n c => n * 10 + c.decimalValue) 0 < 256

def isVersion4 (t : Text) : Bool :=
  let parts := Text.splitOn (.char '.') t
  parts.length = 4 && parts.all isOctet

/-- up to four hexadecimal digits -/
def isGroup (t : Text) : Bool := t.all CodePoint.isHex && 0 < t.length && t.length ≤ 4

/-- how many groups stand between colons, if the text is made of groups.  An address of version 4
counts for two; it may stand only at the end of the whole address. -/
def groupCount? (atEnd : Bool) (t : Text) : Option Nat :=
  let parts := Text.splitOn (.char ':') t
  if t = [] then some 0
  else if parts.all isGroup then some parts.length
  else if atEnd && parts.dropLast.all isGroup && isVersion4 (parts.getLast?.getD []) then
    some (parts.length + 1)
  else none

/-- the text before the first double colon and, if there is one, the text after it -/
def cutGap : Text → Text × Option Text
  | [] => ([], none)
  | .char ':' :: .char ':' :: r => ([], some r)
  | c :: r => ((c :: (cutGap r).1), (cutGap r).2)

/-- is a zone well-formed, or missing? -/
def isZone : Option Text → Bool
  | none => true
  | some zone => zone ≠ [] && !zone.contains (.char '%')

/-- an address of version 6; a zone may follow behind a percent sign -/
def isVersion6 (t : Text) : Bool :=
  let (address, zone) := Text.cut (.char '%') t
  isZone zone && match cutGap address with
    | (whole, none) => groupCount? true whole = some 8
    | (left, some right) =>
      match groupCount? false left, groupCount? true right with
      | some m, some n => m + n < 8
      | _, _ => false

/-- behind the letter `v`: a version in hexadecimal digits, a dot and an address of that version -/
def isFuture (t : Text) : Bool :=
  match Text.cut (.char '.') t with
  | (version, some address) => version ≠ [] && version.all CodePoint.isHex && address ≠ []
  | (_, none) => false

end Relocation.Url.Address
