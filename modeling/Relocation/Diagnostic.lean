import Relocation.Failure
import Relocation.Text.Json

/-!
# Diagnostics

What the command line and the server report: a message with the place it is about, on one line or as
a JSON object.  An empty file name counts as no file name.
-/

namespace Relocation

/-- where something says that it stands -/
structure Place where
  file : Option Text := none
  line : Option Int := none
  column : Option Int := none
  endLine : Option Int := none
  endColumn : Option Int := none
  deriving DecidableEq

/-- a place in a source; `origin` is what it was taken from, if that was no span itself -/
structure Span extends Place where
  origin : Option Place := none
  deriving DecidableEq

/-- the first of two file names, or the second if the first is missing -/
def orFile (first second : Option Text) : Option Text :=
  match first with
  | some (c :: r) => some (c :: r)
  | _ => second

namespace Span

/-- what a span can be made from -/
inductive Location
  | unknown
  | span (s : Span)
  | place (p : Place)

/-- the span of a location; a span is its own, and a place in a named file is taken to be in that
file -/
def ofLocation (file : Option Text) : Location → Span
  | .unknown => { file }
  | .span s => s
  | .place p => { p with file := orFile file p.file, origin := some p }

/-- line and column, with question marks for what is not known -/
def lineColumn (s : Span) : Text :=
  let part (n : Option Int) : Text := match n with
    | some n => Text.ofInt n
    | none => "?"
  part s.line ++ .char ':' :: part s.column

end Span

structure Diagnostic where
  message : Text
  code : Option Text := none
  phase : Option Text := none
  severity : Text := "error"
  span : Span := {}
  notes : List Text := []

namespace Diagnostic

/-- one line: file, line and column, severity, message -/
def display (d : Diagnostic) (fallback : Option Text) : Text :=
  let file := (orFile d.span.file (orFile fallback none)).getD "<input>"
  file ++ .char ':' :: d.span.lineColumn ++ Text.ofString ": " ++ d.severity ++
    Text.ofString ": " ++ d.message

def toJson (d : Diagnostic) (fallback : Option Text) : Json :=
  .object
    [("code", Json.ofOption .text d.code), ("phase", Json.ofOption .text d.phase),
      ("message", .text d.message),
     ("severity", .text d.severity), ("file", Json.ofOption .text (orFile d.span.file fallback)),
     ("line", Json.ofOption .number d.span.line), ("column", Json.ofOption .number d.span.column),
     ("notes", .list (d.notes.map .text))]

/-- the diagnostic for a refused source text -/
def ofSourceError (e : SourceError) (file : Option Text) : Diagnostic where
  message := e.message
  code := some "parse-error"
  phase := some "parser"
  span :=
    Span.ofLocation file (.place { line := e.line.map Int.ofNat, column := e.column.map Int.ofNat })

end Diagnostic

end Relocation
