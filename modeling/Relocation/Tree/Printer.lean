import Relocation.Tree

/-!
# The canonical layout

A tree is printed in two steps: it is flattened into pieces, and the pieces are put side by side.  A
line break stands where the tree records one, indented by the depth of the brackets; elsewhere one
blank separates two pieces unless they attach.  Attachments never change where one token ends and
the next begins.
-/

namespace Relocation

/-- a token as it is printed; `depth` counts the brackets around it -/
structure Piece where
  kind : Piece.Kind
  text : Text
  newline : Bool := false
  depth : Nat := 0

namespace Piece

/-- words that are no operands: a bracket behind one of them stays apart -/
def reservedWords : List Text :=
  ["break", "case", "catch", "class", "const", "continue", "debugger", "default", "delete", "do",
    "else", "export", "extends", "finally", "for", "function", "if", "in", "instanceof", "let",
    "new", "return", "switch", "throw", "try", "typeof", "var", "void", "while", "with", "yield",
    "await"].map Text.ofString

/-- opening brackets and punctuators that attach to what follows -/
def attachesForward : List Text :=
  ["(", "[", ".", "?.", "...", "!", "~"].map Text.ofString

/-- punctuators that attach to what comes before -/
def attachesBackward : List Text :=
  [",", ";", ":", "?."].map Text.ofString

def isName (p : Piece) : Bool := p.kind = .name && !reservedWords.contains p.text

/-- may an operand end with the piece? -/
def endsOperand (p : Piece) : Bool :=
  match p.kind with
  | .name => p.isName
  | .closer => p.text = Text.ofString ")" || p.text = Text.ofString "]"
  | .string | .template | .templateClose => true
  | _ => false

/-- does a blank stand between two pieces of one line? -/
def spaced (before p : Piece) : Bool :=
  if (before.kind = .punct || before.kind = .opener) && attachesForward.contains before.text then
    false
  else if before.kind = .templateOpen || before.kind = .templateMiddle then false
  else match p.kind with
    | .templateMiddle | .templateClose => false
    | .closer => before.kind != .opener && p.text = Text.ofString "\x7d"
    | .punct =>
      if attachesBackward.contains p.text then false
      else if p.text = Text.ofString "." then before.kind = .number
      else if p.text = Text.ofString "++" || p.text = Text.ofString "--" then !before.endsOperand
      else true
    | .opener =>
      if p.text = Text.ofString "(" || p.text = Text.ofString "[" then !before.endsOperand else true
    | .template | .templateOpen => !before.isName
    | _ => true

/-- two blanks for each bracket around a line -/
def indentation (depth : Nat) : Text := List.replicate (2 * depth) (.char ' ')

/-- what stands between two pieces -/
def separator (before p : Piece) : Text :=
  if p.newline then .char '\n' :: indentation p.depth
  else if before.spaced p then [.char ' '] else []

/-- pieces side by side; nothing stands before the first -/
def render : List Piece → Text
  | [] => []
  | [p] => p.text
  | p :: q :: r => p.text ++ p.separator q ++ render (q :: r)

end Piece

namespace Item

mutual
/-- the pieces of an item, where it does not matter what stands around it -/
def pieces (depth : Nat) : Item → List Piece
  | .leaf k t m => [⟨k, t, m.newline, depth⟩]
  | .group b items m closeNewline =>
    ⟨.opener, b.opener, m.newline, depth⟩ :: piecesFrom (depth + 1) 0 items ++
      [⟨.closer, b.closer, closeNewline, depth⟩]
  | .block items m closeNewline =>
    ⟨.name, "module", m.newline, depth⟩ :: ⟨.opener, "\x7b", false, depth⟩ ::
      piecesFrom (depth + 1) 0 items ++ [⟨.closer, "\x7d", closeNewline, depth⟩]
  | .template q rest m =>
    if rest.isEmpty then
      [⟨.template, Text.ofString "\x60" ++ q ++ Text.ofString "\x60", m.newline, depth⟩]
    else ⟨.templateOpen, Text.ofString "\x60" ++ q ++ Text.ofString "$\x7b", m.newline, depth⟩ ::
      restPieces depth rest

/-- the pieces of a sequence in which `questions` question marks wait for their colon.  The colon of
a conditional is spaced on both sides, any other attaches to what comes before. -/
def piecesFrom (depth : Nat) : (questions : Nat) → List Item → List Piece
  | _, [] => []
  | questions, i :: r =>
    if i.isPunct "?" then pieces depth i ++ piecesFrom depth (questions + 1) r
    else if i.isPunct ":" && 0 < questions then
      ⟨.plain, ":", i.mark.newline, depth⟩ :: piecesFrom depth (questions - 1) r
    else pieces depth i ++ piecesFrom depth questions r

/-- the substitutions of a template, each with the chunk behind it -/
def restPieces (depth : Nat) : List (List Item × Text) → List Piece
  | [] => []
  | (items, q) :: r =>
    piecesFrom (depth + 1) 0 items ++
      ((if r.isEmpty then
          ⟨.templateClose, Text.ofString "\x7d" ++ q ++ Text.ofString "\x60", false, depth⟩
        else
          ⟨.templateMiddle, Text.ofString "\x7d" ++ q ++ Text.ofString "$\x7b", false, depth⟩) ::
        restPieces depth r)
end

/-- the canonical text of a sequence of items -/
def print (items : List Item) : Text := Piece.render (piecesFrom 0 0 items)

end Item

namespace Program

/-- the canonical text of a program -/
def print (p : Program) : Text := Item.print p.items

end Program

end Relocation
