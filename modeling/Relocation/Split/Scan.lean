import Relocation.Literal
import Relocation.Tree

/-!
# Finding the splits of a program

Two kinds of ranges depend on the place of a module: one member access on `import.meta`, from
`import` to the end of the member, and the specifier of a static import or re-export if it is a
local path.  The name behind a member dot is no keyword.
-/

namespace Relocation

/-- does a specifier begin with a slash, `./` or `../`? -/
def isLocalPath (specifier : Text) : Bool :=
  (["/", "./", "../"].map Text.ofString).any (·.isPrefixOf specifier)

namespace Split

/-- behind `import`: `.meta` and a member of it, as the number of items and the last of them -/
def metaMember? : List Item → Option (Nat × Item)
  | dot :: word :: access :: r =>
    if dot.isPunct "." && word.isName "meta" then
      if access.isMemberDot then
        match r with
        | member :: _ =>
          if member.isAnyName || (access.isPunct "?." && member.isGroup .square) then
            some (4, member) else none
        | [] => none
      else if access.isGroup .square then some (3, access)
      else none
    else none
  | _ => none

/-- the string in front, if there is one -/
def leadingString? : List Item → Option Item
  | i :: _ => if i.isString then some i else none
  | [] => none

/-- the string behind the first `from`, unless the declaration ends before it -/
def fromClause? : List Item → Option Item
  | [] => none
  | i :: r =>
    if i.isPunct ";" || i.isName "import" || i.isName "export" then none
    else if i.isName "from" then leadingString? r
    else fromClause? r

/-- behind `import`: the specifier of an import declaration -/
def importedFrom? : List Item → Option Item
  | [] => none
  | i :: r =>
    if i.isPunct "." || i.isGroup .paren then none
    else if i.isString then some i
    else fromClause? (i :: r)

/-- the string behind a `from` in front -/
def leadingFrom? : List Item → Option Item
  | i :: r => if i.isName "from" then leadingString? r else none
  | [] => none

/-- behind `export`: the specifier of a re-export -/
def reexportedFrom? : List Item → Option Item
  | [] => none
  | i :: r =>
    if i.isPunct "*" then
      match r with
      | word :: r' => if word.isName "as" then leadingFrom? (r'.drop 1) else leadingFrom? r
      | [] => none
    else if i.isGroup .brace then leadingFrom? r
    else none

/-- the specifier that the declaration with head `i` and rest `r` names -/
def specifier? (i : Item) (r : List Item) : Option Item :=
  if i.isName "import" then importedFrom? r
  else if i.isName "export" then reexportedFrom? r
  else none

/-- the split from the start of one item to the end of another; items without a range have none -/
def between (kind : Kind) (first last : Item) : List Split :=
  match first.range?, last.range? with
  | some a, some b => [⟨kind, a.start, b.stop⟩]
  | _, _ => []

/-- the split of a specifier, if it is a local path -/
def ofSpecifier (s : Item) : Except Failure (List Split) :=
  match s.stringText? with
  | none => .ok []
  | some text => do
    let value ← Literal.value text
    return if isLocalPath value then between .staticImport s s else []

mutual
/-- the splits in a sequence whose first `skip` items belong to a split already; `afterDot` says
that a member dot comes before -/
def scanFrom (afterDot : Bool) : (skip : Nat) → List Item → Except Failure (List Split)
  | _, [] => .ok []
  | skip + 1, _ :: r => scanFrom false skip r
  | 0, i :: r =>
    match if i.isName "import" && !afterDot then metaMember? r else none with
    | some (n, last) => do
      let rest ← scanFrom false n r
      return between .metaUrl i last ++ rest
    | none => do
      let own ← match if afterDot then none else specifier? i r with
        | some s => ofSpecifier s
        | none => .ok []
      let inner ← scanInside i
      let rest ← scanFrom i.isMemberDot 0 r
      return own ++ inner ++ rest

/-- the splits inside an item -/
def scanInside : Item → Except Failure (List Split)
  | .leaf _ _ _ => .ok []
  | .group _ items _ _ => scanFrom false 0 items
  | .template _ rest _ => scanRest rest
  | .block _ _ _ => .error (.inconsistent .uncompiledBlock)

/-- the splits in a template's substitutions -/
def scanRest : List (List Item × Text) → Except Failure (List Split)
  | [] => .ok []
  | (items, _) :: r => do
    let first ← scanFrom false 0 items
    let rest ← scanRest r
    return first ++ rest
end

/-- splits in the order of their starts -/
def sorted (splits : List Split) : List Split :=
  splits.mergeSort fun a b => a.start ≤ b.start

end Split

namespace Program

/-- the splits of a program that was just read -/
def splits (p : Program) : Except Failure (List Split) :=
  match p.source with
  | none => .error (.inconsistent .staleOffsets)
  | some _ => do return Split.sorted (← Split.scanFrom false 0 p.items)

end Program

end Relocation
