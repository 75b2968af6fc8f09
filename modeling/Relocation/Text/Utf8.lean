import Relocation.Text

/-!
# Texts as bytes

UTF-8, which has no form for a surrogate, and the reading of line ends in text files.
-/

namespace Relocation.Text

/-- the bytes of a text, unless it holds a surrogate -/
def utf8? (t : Text) : Option (List UInt8) :=
  (t.mapM CodePoint.toChar?).map fun cs => cs.flatMap String.utf8EncodeChar

/-- how many bytes the text takes; a surrogate is counted as if it took three -/
def utf8Length : Text → Nat
  | [] => 0
  | .char c :: r => c.utf8Size + utf8Length r
  | .surrogate _ :: r => 3 + utf8Length r

/-- the text that bytes encode, if they do -/
def ofUtf8? (bytes : List UInt8) : Option Text :=
  (ByteArray.mk bytes.toArray).utf8Decode?.map fun cs => cs.toList.map .char

/-- every CR LF and every lone CR becomes a line feed -/
def unixLines : Text → Text
  | [] => []
  | .char '\r' :: .char '\n' :: r => .char '\n' :: unixLines r
  | c :: r => (if c = .char '\r' then .char '\n' else c) :: unixLines r

/-- the text of a text file -/
def ofFile? (bytes : List UInt8) : Option Text := (ofUtf8? bytes).map unixLines

end Relocation.Text
