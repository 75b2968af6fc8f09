import Relocation.Token.Stream
import Relocation.Tree

/-!
# From tokens to trees

Tokens are taken one by one into a nest of unfinished constructs.  A token that no construct at hand
can take is refused at its start, so the first fault in token order is the one reported; whatever is
still open at the end is refused at the start of the last token.
-/

namespace Relocation

/-- what an unfinished construct is -/
inductive Opener
  | group (bracket : Bracket)
  /-- the word `module`, its brace still to come -/
  | keyword
  | block
  /-- a template inside a substitution: its first quasi, and what is finished behind it, last
  first -/
  | template (quasi : Text) (done : List (List Item × Text))

/-- an unfinished construct, with the items before it in the sequence around it, last first -/
structure Frame where
  opener : Opener
  start : Nat
  newline : Bool
  before : List Item

/-- unfinished constructs, innermost first, and the items read so far in the innermost one, last
first -/
structure Nest where
  frames : List Frame := []
  items : List Item := []

namespace Nest

/-- adds a finished item -/
def add (n : Nest) (i : Item) : Nest := { n with items := i :: n.items }

/-- begins a construct -/
def enter (n : Nest) (opener : Opener) (start : Nat) (newline : Bool) : Nest :=
  ⟨⟨opener, start, newline, n.items⟩ :: n.frames, []⟩

/-- the mark of a construct that ends at an offset -/
def mark (f : Frame) (stop : Nat) : Mark := ⟨some ⟨f.start, stop⟩, f.newline⟩

/-- takes a closing bracket -/
def close (n : Nest) (bracket : Bracket) (stop : Nat) (newline : Bool) : Option Nest :=
  match n.frames with
  | [] => none
  | f :: fs =>
    match f.opener with
    | .group b =>
      if b = bracket then some ⟨fs, .group b n.items.reverse (mark f stop) newline :: f.before⟩
      else none
    | .block =>
      if bracket = .brace then some ⟨fs, .block n.items.reverse (mark f stop) newline :: f.before⟩
      else none
    | _ => none

/-- takes a chunk that ends one substitution and begins the next -/
def resume (n : Nest) (chunk : Text) : Option Nest :=
  match n.frames with
  | ⟨.template q done, start, newline, before⟩ :: fs =>
    some ⟨⟨.template q ((n.items.reverse, chunk) :: done), start, newline, before⟩ :: fs, []⟩
  | _ => none

/-- takes the chunk that ends a template -/
def finishTemplate (n : Nest) (chunk : Text) (stop : Nat) : Option Nest :=
  match n.frames with
  | ⟨.template q done, start, newline, before⟩ :: fs =>
    some ⟨fs, .template q ((n.items.reverse, chunk) :: done).reverse
      ⟨some ⟨start, stop⟩, newline⟩ :: before⟩
  | _ => none

/-- is the brace of a module block still to come? -/
def awaitsBrace (n : Nest) : Bool :=
  match n.frames with
  | ⟨.keyword, _, _, _⟩ :: _ => true
  | _ => false

/-- takes the brace of a module block -/
def enterBlock (n : Nest) : Nest :=
  match n.frames with
  | ⟨.keyword, start, newline, before⟩ :: fs => ⟨⟨.block, start, newline, before⟩ :: fs, n.items⟩
  | _ => n

/-- the kind of leaf that a token becomes, if it is no bracket and no part of a template -/
def leafKind? : Token.Kind → Option Piece.Kind
  | .name => some .name
  | .number => some .number
  | .string => some .string
  | .regex => some .regex
  | .punct => some .punct
  | _ => none

/-- takes a token; `newline` says that a line break comes before it -/
def push (n : Nest) (t : Token) (newline : Bool) : Option Nest :=
  let start := t.start.offset
  let stop := t.stop.offset
  if n.awaitsBrace then
    if t.kind = .openBrace then some n.enterBlock else none
  else match t.kind with
    | .openParen => some (n.enter (.group .paren) start newline)
    | .openSquare => some (n.enter (.group .square) start newline)
    | .openBrace => some (n.enter (.group .brace) start newline)
    | .closeParen => n.close .paren stop newline
    | .closeSquare => n.close .square stop newline
    | .closeBrace => n.close .brace stop newline
    | .module => some (n.enter .keyword start newline)
    | .template => some (n.add (.template t.text.tail.dropLast [] ⟨some ⟨start, stop⟩, newline⟩))
    | .templateHead => some (n.enter (.template t.text.tail.dropLast.dropLast []) start newline)
    | .templateMiddle => n.resume t.text.tail.dropLast.dropLast
    | .templateTail => n.finishTemplate t.text.tail.dropLast stop
    | kind => (leafKind? kind).map fun k => n.add (.leaf k t.text ⟨some ⟨start, stop⟩, newline⟩)

/-- takes tokens in order, up to the first that is refused -/
def pushAll (n : Nest) : List (Token × Bool) → Except Failure Nest
  | [] => .ok n
  | (t, newline) :: r =>
    match n.push t newline with
    | none => .error (.sourceAt t.start (.unbalanced t.text))
    | some n' => n'.pushAll r

/-- the finished sequence, if nothing is open; `last` is the start of the last token -/
def finish (n : Nest) (last : Position) : Except Failure (List Item) :=
  match n.frames with
  | [] => .ok n.items.reverse
  | _ :: _ => .error (.sourceAt last .unclosed)

end Nest

namespace TokenStream

/-- the items that a stream of tokens makes up; a token out of place is reported before a lexeme
further on that cannot be read -/
def items (s : TokenStream) : Except Failure (List Item) := do
  let nest ← Nest.pushAll {} (Token.withBreaks none s.tokens)
  match s.failure with
  | some failure => .error failure
  | none => nest.finish ((s.tokens.getLast?.map (·.start)).getD .start)

end TokenStream

namespace Program

/-- reads a text -/
def read (source : Text) : Except Failure Program := do
  let items ← (TokenStream.ofText source).items
  return ⟨items, some source⟩

/-- reads a fragment that goes into another tree -/
def readFragment (source : Text) : Except Failure (List Item) := do
  let program ← read source
  return Item.bareAll program.items

end Program

end Relocation
