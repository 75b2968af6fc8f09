import Relocation.ImportCall
import Relocation.Nameless
import Relocation.Support.Import

/-!
# Compilation

Items are lowered from the inside out.  The body of a module block is compiled like a module of its
own before the block is replaced: its calls are guarded, its inner blocks are artifacts already, the
support import goes in front; then the body is printed and read again, so that its splits are ranges
of exactly the text that is cut.  Inner artifacts are part of that text, so what they refer to is
bound to the module that creates the outermost block.
-/

namespace Relocation.Compile

/-- the plan of a block's body; the body holds no blocks any more -/
def bodyPlan (options : Options) (items : List Item) : Noted Plan := do
  let body ← Noted.lift ((⟨items, none⟩ : Program).withSupport options)
  let text ← Noted.lift (body.printFor options)
  let program ← Noted.lift (Program.read text)
  let splits ← Noted.lift program.splits
  Noted.tell (.bodyPlanned text.length splits.length)
  Noted.lift (Plan.ofSplits text splits)

/-- guards the calls of a sequence whose items have been lowered -/
def guardCallsAfter (options : Options) (m : Noted (List Item × List Plan)) :
    Noted (List Item × List Plan) := do
  let (items, plans) ← m
  let items ← ImportCall.guardCalls options items
  return (items, plans)

/-- the artifact of a block whose body has been lowered -/
def blockArtifact (options : Options) (newline : Bool) (body : List Item) :
    Noted (List Item × List Plan) := do
  let plan ← bodyPlan options body
  let artifact ← Noted.lift (plan.artifact options)
  let artifact := match artifact with
    | [] => []
    | i :: r => (if newline then i.onNewLine else i) :: r
  return (artifact, [plan])

mutual
/-- what takes the place of an item, and the plans of the outermost blocks in it -/
def lowerItem (options : Options) : Item → Noted (List Item × List Plan)
  | .leaf k t m => return ([.leaf k t m], [])
  | .group b items m closeNewline => do
    let (items, plans) ← guardCallsAfter options (lowerAll options items)
    return ([.group b items ⟨none, m.newline⟩ closeNewline], plans)
  | .template q rest m => do
    let (rest, plans) ← lowerRest options rest
    return ([.template q rest ⟨none, m.newline⟩], plans)
  | .block items m _ => do
    let (items, _) ← guardCallsAfter options (lowerAll options items)
    blockArtifact options m.newline items

/-- what takes the place of a sequence, its own calls not guarded yet -/
def lowerAll (options : Options) : List Item → Noted (List Item × List Plan)
  | [] => return ([], [])
  | i :: r => do
    let (first, plans) ← lowerItem options i
    let (rest, morePlans) ← lowerAll options r
    return (first ++ rest, plans ++ morePlans)

/-- what takes the place of a template's substitutions -/
def lowerRest (options : Options) :
    List (List Item × Text) → Noted (List (List Item × Text) × List Plan)
  | [] => return ([], [])
  | (items, q) :: r => do
    let (items, plans) ← guardCallsAfter options (lowerAll options items)
    let (rest, morePlans) ← lowerRest options r
    return ((items, q) :: rest, plans ++ morePlans)
end

/-- what takes the place of a whole sequence, and the plans of its outermost blocks -/
def lower (options : Options) (items : List Item) : Noted (List Item × List Plan) :=
  guardCallsAfter options (lowerAll options items)

/-- the compiled program -/
def program (options : Options) (p : Program) : Noted Program := do
  let (items, _) ← lower options p.items
  Noted.lift ((⟨items, none⟩ : Program).withSupport options)

/-- the compiled text of a module -/
def text (options : Options) (source : Text) : Noted Text := do
  let p ← Noted.lift (Program.read source)
  let output ← Noted.lift ((← program options p).printFor options)
  Noted.tell (.unitCompiled source.length output.length)
  return output

/-- plans with their substitutions filled in -/
def fillAll (value : Substitution → Except Failure Text) : List Plan → Except Failure (List Text)
  | [] => .ok []
  | p :: r => do
    let body ← p.fill value
    let bodies ← fillAll value r
    return body :: bodies

/-- the bodies of the outermost blocks of a module, with their substitutions filled in -/
def bodiesFilled (options : Options) (source : Text) (value : Substitution → Except Failure Text) :
    Noted (List Text) := do
  let p ← Noted.lift (Program.read source)
  let (_, plans) ← lower options p.items
  Noted.lift (fillAll value plans)

/-- the bodies of the outermost blocks of a module, as created at `metaUrl` -/
def bodies (options : Options) (source metaUrl : Text) : Noted (List Text) :=
  bodiesFilled options source (·.valueAt metaUrl)

end Relocation.Compile
