import Relocation.Token.Context

/-!
# Token streams

A text is cut into lexemes from left to right; the ones that are not gaps are its tokens.  Cutting
stops at the first lexeme that cannot be read, and keeps the tokens before it.
-/

namespace Relocation

/-- a stretch of text, and what it is -/
structure Lexeme where
  front : Token.Front
  text : Text

namespace Lexeme

/-- the context behind a lexeme: gaps leave no trace -/
def context (l : Lexeme) (ctx : Token.Context) : Token.Context :=
  match l.front with
  | .gap => ctx
  | .token kind => ctx.after kind l.text

/-- the lexemes of a text whose first `skip` characters have been cut off already, and why cutting
stopped early -/
def cutFrom (ctx : Token.Context) : (skip : Nat) → Text → List Lexeme × Option Token.Context.Refusal
  | _, [] => ([], none)
  | skip + 1, _ :: r => cutFrom ctx skip r
  | 0, c :: r =>
    match ctx.front c r with
    | .error refusal => ([], some refusal)
    | .ok (front, n) =>
      let l : Lexeme := ⟨front, c :: r.take n⟩
      let rest := cutFrom (l.context ctx) n r
      (l :: rest.1, rest.2)

/-- a first line that names an interpreter is a gap -/
def hashbang : Text → List Lexeme
  | .char '#' :: .char '!' :: r => [⟨.gap, .char '#' :: .char '!' :: r.take (Lexical.lineLength r)⟩]
  | _ => []

/-- the lexemes of a whole text -/
def cut (t : Text) : List Lexeme × Option Token.Context.Refusal :=
  let line := hashbang t
  let rest := cutFrom {} (line.flatMap (·.text)).length t
  (line ++ rest.1, rest.2)

/-- the tokens among lexemes that begin at a position -/
def tokens (p : Position) : List Lexeme → List Token
  | [] => []
  | l :: r =>
    match l.front with
    | .gap => tokens (p.advance l.text) r
    | .token kind => ⟨kind, l.text, p, p.advance l.text⟩ :: tokens (p.advance l.text) r

/-- the position behind lexemes that begin at a position -/
def stop (p : Position) : List Lexeme → Position
  | [] => p
  | l :: r => stop (p.advance l.text) r

end Lexeme

/-- the tokens of a text, and the failure that ended them if one did -/
structure TokenStream where
  tokens : List Token
  failure : Option Failure

namespace TokenStream

def ofText (t : Text) : TokenStream :=
  let cut := Lexeme.cut t
  { tokens := Lexeme.tokens .start cut.1
    failure := cut.2.map fun
      | .fault f => .sourceAt (Lexeme.stop .start cut.1) f
      | .strayDigit => .strayDigit }

end TokenStream

namespace Token

/-- each token with whether a line break separates it from the token before it -/
def withBreaks (lastLine : Option Nat) : List Token → List (Token × Bool)
  | [] => []
  | t :: r => (t, lastLine.any (· < t.start.line)) :: withBreaks (some t.stop.line) r

end Token

end Relocation
