import Relocation.Literal
import Relocation.Split.Scan
import Relocation.Text.Json
import Relocation.Url

/-!
# Splice plans

A plan is a text cut at its splits: literal segments and, between them, what has to be filled in.
Splits are taken from the last to the first, each against the text before the one after it, so
ranges that overlap or leave the text are found out.
-/

namespace Relocation

/-- what is filled in between two segments; a static import carries its specifier's value -/
inductive Substitution
  | metaUrl
  | staticImport (specifier : Option Text)
  | other (label : Text)
  deriving DecidableEq

namespace Substitution

def kind : Substitution → Split.Kind
  | .metaUrl => .metaUrl
  | .staticImport _ => .staticImport
  | .other label => .other label

def specifier? : Substitution → Option Text
  | .staticImport s => s
  | _ => none

/-- `import.meta.url` -/
def metaUrlItems : List Item :=
  [.name "import", .punct ".", .name "meta", .punct ".", .name "url"]

/-- the call of `JSON.stringify` on an expression -/
def stringified (argument : List Item) : List Item :=
  [.name "JSON", .punct ".", .name "stringify", .grouped .paren argument]

/-- the expression that computes the substitution in the module that creates a block -/
def code : Substitution → Except Failure (List Item)
  | .metaUrl => .ok (stringified metaUrlItems)
  | .staticImport s =>
    let reference : Item := match s with
      | some t => .leaf .string (Json.literal t) {}
      | none => .name "null"
    .ok (stringified [.name "new", .name "URL",
      .grouped .paren (reference :: .punct "," :: metaUrlItems)])
  | .other label => .error (.inconsistent (.unknownKind (.other label)))

/-- what the expression yields in a module at `metaUrl` -/
def valueAt (s : Substitution) (metaUrl : Text) : Except Failure Text :=
  match s with
  | .metaUrl => .ok (Json.literal metaUrl)
  | .staticImport (some t) =>
    match Url.resolve metaUrl t with
    | .ok url => .ok (Json.literal url)
    | .error v => .error (.value v)
  | .staticImport none => .ok (if metaUrl = [] then "null" else Json.literal metaUrl)
  | .other label => .error (.inconsistent (.unknownKind (.other label)))

/-- what takes the place of the expression when the URL of the creating module was left out:
references stay as they are -/
def valueUnplaced (s : Substitution) : Except Failure Text :=
  match s with
  | .metaUrl => .ok Json.leftOut
  | .staticImport (some t) => .ok (Json.literal t)
  | .staticImport none => .ok "null"
  | .other label => .error (.inconsistent (.unknownKind (.other label)))

/-- what has to be filled in for a split of a text -/
def ofSplit (source : Text) (s : Split) : Except Failure Substitution :=
  match s.kind with
  | .metaUrl => .ok .metaUrl
  | .staticImport => do
    let value ← Literal.value ((source.take s.stop.toNat).drop s.start.toNat)
    return .staticImport (some value)
  | .other label => .error (.inconsistent (.unknownKind (.other label)))

end Substitution

/-- the first segment, then each substitution with the segment behind it -/
structure Plan where
  source : Text
  first : Text
  rest : List (Substitution × Text)

namespace Plan

/-- the segments, one more than there are substitutions -/
def literals (p : Plan) : List Text := p.first :: p.rest.map (·.2)

def substitutions (p : Plan) : List Substitution := p.rest.map (·.1)

/-- a plan made by hand -/
def ofParts (source : Text) (literals : List Text) (substitutions : List Substitution) :
    Except Failure Plan :=
  match literals with
  | [] => .error (.inconsistent (.planShape 0 substitutions.length))
  | l :: ls =>
    if ls.length = substitutions.length then .ok ⟨source, l, substitutions.zip ls⟩
    else .error (.inconsistent (.planShape (ls.length + 1) substitutions.length))

/-- cuts off one split after the other, the ones with larger starts first; everything from `limit`
on is done -/
def cutAll (source : Text) (limit : Nat) (done : List (Substitution × Text)) : List Split →
    Except Failure Plan
  | [] => .ok ⟨source, source.take limit, done⟩
  | s :: r =>
    if 0 ≤ s.start ∧ s.start ≤ s.stop ∧ s.stop ≤ limit then do
      let substitution ← Substitution.ofSplit source s
      cutAll source s.start.toNat ((substitution, (source.take limit).drop s.stop.toNat) :: done) r
    else .error (.inconsistent (.misplacedSplit s))

/-- the plan of a text with given splits, in any order -/
def ofSplits (source : Text) (splits : List Split) : Except Failure Plan :=
  cutAll source source.length [] (splits.mergeSort fun a b => b.start ≤ a.start)

/-- substitutions filled in, with the segments behind them -/
def fillRest (value : Substitution → Except Failure Text) : List (Substitution × Text) →
    Except Failure Text
  | [] => .ok []
  | (s, literal) :: r => do
    let filled ← value s
    let rest ← fillRest value r
    return filled ++ literal ++ rest

/-- the text with its substitutions filled in -/
def fill (p : Plan) (value : Substitution → Except Failure Text) : Except Failure Text := do
  let rest ← fillRest value p.rest
  return p.first ++ rest

/-- the text as created in a module at `metaUrl` -/
def textAt (p : Plan) (metaUrl : Text) : Except Failure Text := p.fill (·.valueAt metaUrl)

end Plan

end Relocation
