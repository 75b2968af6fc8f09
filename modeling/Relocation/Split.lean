import Relocation.Text
import Relocation.Text.Quoted

/-!
# Splits

A split is a range of a text that has to be filled in again when the text moves to another place: a
member of `import.meta`, or the specifier of a static import or re-export.
-/

namespace Relocation

/-- what a split stands for; plans made by hand may carry labels that mean nothing here -/
inductive Split.Kind
  | metaUrl
  | staticImport
  | other (label : Text)
  deriving DecidableEq

structure Split where
  kind : Split.Kind
  start : Int
  stop : Int
  deriving DecidableEq

namespace Split

/-- a kind as messages show it -/
def Kind.display : Kind → Text
  | .metaUrl => "<SplitKind.META_URL: 'meta-url'>"
  | .staticImport => "<SplitKind.STATIC_IMPORT: 'static-import'>"
  | .other label => Text.quoted label

/-- a split as messages show it -/
def display (s : Split) : Text :=
  Text.ofString "Split(kind=" ++ s.kind.display ++ Text.ofString ", start=" ++ Text.ofInt s.start ++
    Text.ofString ", end=" ++ Text.ofInt s.stop ++ Text.ofString ")"

end Split

end Relocation
