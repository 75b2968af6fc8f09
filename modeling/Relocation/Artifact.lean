import Relocation.Plan

/-!
# Artifacts

The expression that stands for a module block in compiled code: the block class applied to a
template literal.  The segments of the plan become the template's raw text, escaped so that the
template's value is the segment again, and the substitutions are computed when the block is created.
-/

namespace Relocation

/-- names that compiled code uses: where the support module is imported from, and the local name of
the block class.  Either may have been left out. -/
structure Options where
  supportSpecifier : Option Text := some "/module-blocks-shim.js"
  className : Option Text := some "ModuleBlock"

namespace Options

/-- how the class is named in code -/
def classCode (o : Options) : Text := o.className.getD Json.leftOut

/-- the name of the class -/
def isClass (o : Options) (i : Item) : Bool := o.className.any (i.isName ·)

end Options

/-- raw template text that stands for `t`.  A carriage return is escaped because a raw one would be
read as a line feed. -/
def escapeRaw : Text → Text
  | [] => []
  | .char '$' :: .char '\x7b' :: r => .char '\\' :: .char '$' :: .char '\x7b' :: escapeRaw r
  | c :: r =>
    if c = .char '\\' || c = .char '\x60' then .char '\\' :: c :: escapeRaw r
    else if c = .char '\r' then .char '\\' :: .char 'r' :: escapeRaw r
    else c :: escapeRaw r

namespace Plan

/-- the substitutions of a template that computes the plan -/
def templateRest : List (Substitution × Text) → Except Failure (List (List Item × Text))
  | [] => .ok []
  | (s, literal) :: r => do
    let items ← s.code
    let rest ← templateRest r
    return (items, escapeRaw literal) :: rest

/-- the expression that creates a block from the plan -/
def artifact (p : Plan) (options : Options) : Except Failure (List Item) := do
  let rest ← templateRest p.rest
  return [.name "new", .name options.classCode,
    .grouped .paren [.template (escapeRaw p.first) rest {}]]

end Plan

end Relocation
