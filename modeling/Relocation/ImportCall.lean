import Relocation.Artifact
import Relocation.Notice

/-!
# Dynamic imports

A call `import(x)` is guarded: its argument is passed through `fixup` of the block class, which
recovers a block that lost its class on the way; a single literal that is a local path becomes a URL
right at the call.  Calls with no argument or several stay as they are, and so do calls that have
one of the two forms already.
-/

namespace Relocation

/-- the parts between top-level commas, one more than there are commas -/
def splitCommas : List Item → List (List Item)
  | [] => [[]]
  | i :: r =>
    match splitCommas r with
    | [] => [[i]]
    | p :: ps => if i.isPunct "," then [] :: p :: ps else (i :: p) :: ps

/-- the arguments of a call; nothing stands behind a trailing comma -/
def argumentsOf (items : List Item) : List (List Item) :=
  let parts := splitCommas items
  if (parts.getLast?.getD []).isEmpty then parts.dropLast else parts

namespace ImportCall

/-- `import.meta.url` -/
def isMetaUrl : List Item → Bool
  | [a, b, c, d, e] =>
    a.isName "import" && b.isPunct "." && c.isName "meta" && d.isPunct "." && e.isName "url"
  | _ => false

/-- `Class.fixup(…)` -/
def isFixup (options : Options) : List Item → Bool
  | [a, b, c, d] => options.isClass a && b.isPunct "." && c.isName "fixup" && d.isGroup .paren
  | _ => false

/-- `new URL("…", import.meta.url)` -/
def isLocated : List Item → Bool
  | [a, b, c] =>
    a.isName "new" && b.isName "URL" &&
      match c.groupItems? .paren with
      | some (s :: comma :: rest) => s.isString && comma.isPunct "," && isMetaUrl rest
      | _ => false
  | _ => false

/-- a lone literal that is a local path -/
def localLiteral? : List Item → Except Failure (Option Item)
  | [i] =>
    match i.stringText? with
    | none => .ok none
    | some t => do return if isLocalPath (← Literal.value t) then some i else none
  | _ => .ok none

/-- what the arguments of an import call become; nothing if they stay -/
def guardArguments (options : Options) (items : List Item) : Except Failure (Option (List Item)) :=
  match argumentsOf items with
  | [argument] => do
    match ← localLiteral? argument with
    | some literal =>
      return some [.name "new", .name "URL",
        .grouped .paren (literal :: .punct "," :: Substitution.metaUrlItems)]
    | none =>
      if isFixup options argument || isLocated argument then return none
      else return some [.name options.classCode, .punct ".", .name "fixup",
        .grouped .paren argument]
  | _ => .ok none

/-- what the argument group of an import call becomes; nothing if it stays -/
def guardGroup? (options : Options) : Item → Except Failure (Option Item)
  | .group .paren items m closeNewline => do
    return (← guardArguments options items).map fun items' =>
      .group .paren items' ⟨none, m.newline⟩ closeNewline
  | _ => .ok none

/-- is the group behind `previous` the arguments of a call?  A member named `import` is none, and
with a body behind the group it is the definition of a method. -/
def isCall (before previous : Option Item) (i : Item) (r : List Item) : Bool :=
  i.isGroup .paren && previous.any (·.isName "import") && !before.any (·.isMemberDot) &&
    !r.head?.any (·.isGroup .brace)

/-- for each item of a sequence what takes its place, if it is the argument group of a call that is
guarded -/
def replacements (options : Options) (before previous : Option Item) : List Item →
    Noted (List (Option Item))
  | [] => return []
  | i :: r => do
    let own ← if isCall before previous i r then Noted.lift (guardGroup? options i) else pure none
    if own.isSome then Noted.tell .callGuarded
    let rest ← replacements options previous (some i) r
    return own :: rest

/-- the sequence with its calls guarded, one nesting level only -/
def guardCalls (options : Options) (items : List Item) : Noted (List Item) := do
  let replaced ← replacements options none none items
  return List.zipWith (fun o i => o.getD i) replaced items

end ImportCall

end Relocation
