import Relocation.Text
import Relocation.Text.Quoted

/-!
# JSON text

String literals as they go into compiled code (only quote, backslash and control characters are
escaped) and as they go into reports (printable ASCII only, astral characters as surrogate pairs),
and the values that reports are made of.
-/

namespace Relocation.Json

/-- the escapes that every JSON string literal needs -/
def escaped (c : CodePoint) : Option Text :=
  if c = .char '"' then some "\\\""
  else if c = .char '\\' then some "\\\\"
  else if c = .char '\n' then some "\\n"
  else if c = .char '\r' then some "\\r"
  else if c = .char '\t' then some "\\t"
  else if c = .char '\x08' then some "\\b"
  else if c = .char '\x0c' then some "\\f"
  else if c.value < 0x20 then some (Text.ofString "\\u" ++ Text.hexDigits 4 c.value)
  else none

/-- string literal in which everything beyond ASCII stands for itself -/
def literal (t : Text) : Text :=
  .char '"' :: t.flatMap (fun c => (escaped c).getD [c]) ++ [.char '"']

/-- how a text that was left out shows: as an empty list -/
def leftOut : Text := "[]"

/-- string literal of a text, unless it was left out -/
def optionalLiteral : Option Text → Text
  | some t => literal t
  | none => leftOut

/-- a character by its UTF-16 units -/
def unitEscapes (n : Nat) : Text :=
  if n < 0x10000 then Text.ofString "\\u" ++ Text.hexDigits 4 n
  else Text.ofString "\\u" ++ Text.hexDigits 4 (0xD800 + (n - 0x10000) / 0x400) ++
    (Text.ofString "\\u" ++ Text.hexDigits 4 (0xDC00 + (n - 0x10000) % 0x400))

/-- string literal in printable ASCII -/
def asciiLiteral (t : Text) : Text :=
  let shown (c : CodePoint) : Text :=
    (escaped c).getD (if c.value < 0x7F then [c] else unitEscapes c.value)
  .char '"' :: t.flatMap shown ++ [.char '"']

end Relocation.Json

namespace Relocation

/-- the values that reports are made of; the fields of an object keep their order -/
inductive Json
  | null
  | number (n : Int)
  | text (t : Text)
  | list (l : List Json)
  | object (fields : List (String × Json))

namespace Json

def ofOption {α : Type} (f : α → Json) : Option α → Json
  | none => .null
  | some a => f a

mutual
/-- a value on one line, in ASCII, with a blank after each comma and colon -/
def render : Json → Text
  | .null => "null"
  | .number n => Text.ofInt n
  | .text t => asciiLiteral t
  | .list l => .char '[' :: renderAll l ++ [.char ']']
  | .object fields => .char '\x7b' :: renderFields fields ++ [.char '\x7d']

def renderAll : List Json → Text
  | [] => []
  | [v] => render v
  | v :: w :: r => render v ++ Text.ofString ", " ++ renderAll (w :: r)

def renderFields : List (String × Json) → Text
  | [] => []
  | [(k, v)] => asciiLiteral k ++ Text.ofString ": " ++ render v
  | (k, v) :: f :: r =>
    asciiLiteral k ++ Text.ofString ": " ++ render v ++ Text.ofString ", " ++ renderFields (f :: r)
end

end Json

end Relocation
