import Relocation.Failure

/-!
# Item trees

A program is a sequence of items: single tokens, bracketed groups, template literals and module
blocks.  Items that come straight from a text know the range they were read from; items that a pass
made or rebuilt do not.
-/

namespace Relocation

/-- the ways in which a printed piece attaches to its neighbours.  The first five are also the kinds
of tokens that become leaves; a leaf made by hand may have any. -/
inductive Piece.Kind
  | name
  | number
  | string
  | regex
  | punct
  | opener
  | closer
  | template
  | templateOpen
  | templateMiddle
  | templateClose
  | plain
  deriving DecidableEq

inductive Bracket
  | paren
  | square
  | brace
  deriving DecidableEq

namespace Bracket

def opener : Bracket → Text
  | .paren => "("
  | .square => "["
  | .brace => "\x7b"

def closer : Bracket → Text
  | .paren => ")"
  | .square => "]"
  | .brace => "\x7d"

end Bracket

/-- the offsets between which an item was read -/
structure Range where
  start : Nat
  stop : Nat
  deriving DecidableEq

/-- where an item stands: its range, and whether a line break comes before it -/
structure Mark where
  range : Option Range := none
  newline : Bool := false
  deriving DecidableEq

/-- a template is its first quasi and then each substitution with the quasi behind it; quasis are
raw text -/
inductive Item
  | leaf (kind : Piece.Kind) (text : Text) (mark : Mark)
  | group (bracket : Bracket) (items : List Item) (mark : Mark) (closeNewline : Bool)
  | template (quasi : Text) (rest : List (List Item × Text)) (mark : Mark)
  | block (items : List Item) (mark : Mark) (closeNewline : Bool)

namespace Item

def name (text : Text) : Item := .leaf .name text {}

def punct (text : Text) : Item := .leaf .punct text {}

/-- a group without line breaks of its own -/
def grouped (bracket : Bracket) (items : List Item) : Item := .group bracket items {} false

/-- a template from its quasis and substitutions; there has to be one more quasi than there are
substitutions -/
def template? (quasis : List Text) (substitutions : List (List Item)) (mark : Mark) :
    Except Failure Item :=
  match quasis with
  | [] => .error (.value .templateShape)
  | q :: qs =>
    if qs.length = substitutions.length then .ok (.template q (substitutions.zip qs) mark)
    else .error (.value .templateShape)

def mark : Item → Mark
  | .leaf _ _ m | .group _ _ m _ | .template _ _ m | .block _ m _ => m

def range? (i : Item) : Option Range := i.mark.range

def isAnyName : Item → Bool
  | .leaf .name _ _ => true
  | _ => false

def isName (i : Item) (word : Text) : Bool :=
  match i with
  | .leaf .name t _ => t = word
  | _ => false

def isPunct (i : Item) (p : Text) : Bool :=
  match i with
  | .leaf .punct t _ => t = p
  | _ => false

/-- the text of a string literal -/
def stringText? : Item → Option Text
  | .leaf .string t _ => some t
  | _ => none

def isString (i : Item) : Bool := i.stringText?.isSome

/-- the items between the given brackets -/
def groupItems? (i : Item) (bracket : Bracket) : Option (List Item) :=
  match i with
  | .group b items _ _ => if b = bracket then some items else none
  | _ => none

def isGroup (i : Item) (bracket : Bracket) : Bool := (i.groupItems? bracket).isSome

/-- the point of a member access, optional or not -/
def isMemberDot (i : Item) : Bool := i.isPunct "." || i.isPunct "?."

/-- the item on a line of its own; it stands nowhere in a text any more -/
def onNewLine : Item → Item
  | .leaf k t _ => .leaf k t ⟨none, true⟩
  | .group b items _ c => .group b items ⟨none, true⟩ c
  | .template q rest _ => .template q rest ⟨none, true⟩
  | .block items _ c => .block items ⟨none, true⟩ c

mutual
/-- the item without ranges and line breaks -/
def bare : Item → Item
  | .leaf k t _ => .leaf k t {}
  | .group b items _ _ => .group b (bareAll items) {} false
  | .template q rest _ => .template q (bareRest rest) {}
  | .block items _ _ => .block (bareAll items) {} false

def bareAll : List Item → List Item
  | [] => []
  | i :: r => bare i :: bareAll r

def bareRest : List (List Item × Text) → List (List Item × Text)
  | [] => []
  | (items, q) :: r => (bareAll items, q) :: bareRest r
end

end Item

/-- a sequence of items, with the text they were read from while every range still holds of it -/
structure Program where
  items : List Item
  source : Option Text := none

end Relocation
