import Relocation.Text

/-!
# Base64

Three bytes become four digits of six bits; a shorter last group is filled up with equals signs.
-/

namespace Relocation.Base64

/-- the digit for a number below 64 -/
def digit (n : Nat) : CodePoint :=
  .char (Char.ofNat (if n < 26 then 0x41 + n else if n < 52 then 0x61 + (n - 26)
    else if n < 62 then 0x30 + (n - 52) else if n = 62 then 0x2B else 0x2F))

def encode : List UInt8 → Text
  | a :: b :: c :: r =>
    digit (a.toNat / 4) :: digit (a.toNat % 4 * 16 + b.toNat / 16) ::
      digit (b.toNat % 16 * 4 + c.toNat / 64) ::
      digit (c.toNat % 64) :: encode r
  | [a, b] =>
    [digit (a.toNat / 4), digit (a.toNat % 4 * 16 + b.toNat / 16),
      digit (b.toNat % 16 * 4), .char '=']
  | [a] => [digit (a.toNat / 4), digit (a.toNat % 4 * 16), .char '=', .char '=']
  | [] => []

end Relocation.Base64
