import Relocation.Failure
import Relocation.Token.Lexical

/-!
# What a lexeme depends on

How far the next lexeme reaches, and what it is, depends on the characters in front and on what came
before: the token just read decides between a regular expression and a division, the open braces
decide whether a closing brace resumes a template, and the parentheses remember whether they follow
the head of a statement.
-/

namespace Relocation.Token

/-- an open brace: of a block, or of a template's substitution -/
inductive Brace
  | block
  | template
  deriving DecidableEq

structure Context where
  previous : Option (Kind × Text) := none
  /-- open braces, innermost first -/
  braces : List Brace := []
  /-- for each open parenthesis, innermost first: does it follow the head of a statement? -/
  parens : List Bool := []
  /-- does the parenthesis that was closed last follow the head of a statement? -/
  endedHead : Bool := false
  deriving DecidableEq

/-- keywords behind which an expression begins -/
def operatorWords : List Text :=
  ["return", "typeof", "instanceof", "in", "of", "new", "delete", "void", "throw", "case", "do",
    "else", "yield", "await", "extends"].map Text.ofString

/-- keywords whose parentheses a statement follows -/
def headWords : List Text :=
  ["if", "while", "for", "with"].map Text.ofString

/-- what stands at the front of a text: nothing that counts, or a token -/
inductive Front
  | gap
  | token (kind : Kind)
  deriving DecidableEq

namespace Context

/-- the context behind a token -/
def after (ctx : Context) (kind : Kind) (text : Text) : Context :=
  let ctx' := { ctx with previous := some (kind, text) }
  match kind with
  | .openParen =>
    let head := match ctx.previous with
      | some (.name, word) => headWords.contains word
      | _ => false
    { ctx' with parens := head :: ctx.parens }
  | .closeParen => { ctx' with parens := ctx.parens.tail, endedHead := ctx.parens.head?.getD false }
  | .openBrace => { ctx' with braces := .block :: ctx.braces }
  | .templateHead => { ctx' with braces := .template :: ctx.braces }
  | .closeBrace | .templateTail => { ctx' with braces := ctx.braces.tail }
  | _ => ctx'

/-- may a slash begin a regular expression here? -/
def slashOpensRegex (ctx : Context) : Bool :=
  match ctx.previous with
  | none => true
  | some (.name, word) => operatorWords.contains word
  | some (.closeParen, _) => ctx.endedHead
  | some (.number, _) | some (.string, _) | some (.regex, _) | some (.closeSquare, _) |
      some (.template, _)
  | some (.templateTail, _) => false
  | some (.punct, p) => p != Text.ofString "++" && p != Text.ofString "--"
  | some _ => true

/-- is the name that follows a member's name? -/
def namesMember (ctx : Context) : Bool :=
  match ctx.previous with
  | some (.punct, p) => p = Text.ofString "." || p = Text.ofString "?."
  | _ => false

/-- a name, or the keyword that opens a module block: `module` with its brace on the same line,
unless it names a member -/
def nameKind (ctx : Context) (text rest : Text) : Kind :=
  if text = Text.ofString "module" && Lexical.leadsToBrace false rest && !ctx.namesMember then
    .module else .name

/-- the end of a template literal's chunk -/
def templateFront (whole opening : Kind) (r : Text) : Except SourceFault (Front × Nat) :=
  match Lexical.templateLength? r with
  | none => .error .unterminatedTemplate
  | some (n, opens) => .ok (.token (if opens then opening else whole), n)

/-- how a lexeme can fail to be read -/
inductive Refusal
  | fault (f : SourceFault)
  | strayDigit
  deriving DecidableEq

/-- what stands at the front of `c :: r`, and how many characters of `r` belong to it -/
def front (ctx : Context) (c : CodePoint) (r : Text) : Except Refusal (Front × Nat) :=
  if Lexical.isWhitespace c then .ok (.gap, Lexical.runLength Lexical.isWhitespace r)
  else if c.isLineTerminator then
    .ok (.gap, if c = .char '\r' && r.head? = some (.char '\n') then 1 else 0)
  else match c, r with
    | .char '/', .char '/' :: r' => .ok (.gap, 1 + Lexical.lineLength r')
    | .char '/', .char '*' :: r' =>
      match Lexical.commentLength? r' with
      | none => .error (.fault .unterminatedComment)
      | some n => .ok (.gap, 1 + n)
    | .char '(', _ => .ok (.token .openParen, 0)
    | .char ')', _ => .ok (.token .closeParen, 0)
    | .char '[', _ => .ok (.token .openSquare, 0)
    | .char ']', _ => .ok (.token .closeSquare, 0)
    | .char '\x7b', _ => .ok (.token .openBrace, 0)
    | .char '\x7d', _ =>
      if ctx.braces.head? = some .template then
        (templateFront .templateTail .templateMiddle r).mapError .fault
      else .ok (.token .closeBrace, 0)
    | .char '\x60', _ => (templateFront .template .templateHead r).mapError .fault
    | c, _ =>
      if c = .char '"' || c = .char '\'' then
        match Lexical.stringLength? c r with
        | none => .error (.fault .unterminatedString)
        | some n => .ok (.token .string, n)
      else if c.isDigitValued || (c = .char '.' && r.head?.any (·.isDigitValued)) then
        match Lexical.numberLength (c :: r) with
        | 0 => .error .strayDigit
        | n + 1 => .ok (.token .number, n)
      else if Lexical.isNameStart c then
        let n := Lexical.runLength Lexical.isNamePart r
        .ok (.token (ctx.nameKind (c :: r.take n) (r.drop n)), n)
      else if c = .char '#' && r.head?.any Lexical.isNameStart then
        .ok (.token .name, Lexical.runLength Lexical.isNamePart r)
      else if c = .char '/' then
        if ctx.slashOpensRegex then
          match Lexical.regexLength? false r with
          | none => .error (.fault .unterminatedRegex)
          | some n => .ok (.token .regex, n)
        else .ok (.token .punct, if r.head? = some (.char '=') then 1 else 0)
      else
        match Lexical.punctuatorLength? (c :: r) with
        | none => .error (.fault (.unexpectedCharacter c))
        | some n => .ok (.token .punct, n - 1)

end Context

end Relocation.Token
