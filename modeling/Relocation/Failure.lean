import Relocation.Split
import Relocation.Token

/-!
# Failures

Every way in which an operation can fail, by cause, and the words for it.  A source error is the
user's: it carries the line and column where reading stopped, unless it was found in a literal's
value.  An inconsistency is never the user's: two passes disagree about data that they share.
-/

namespace Relocation

/-- why a source text is refused -/
inductive SourceFault
  | unterminatedComment
  | unterminatedString
  | unterminatedRegex
  | unterminatedTemplate
  | unexpectedCharacter (c : CodePoint)
  | unbalanced (token : Text)
  | unclosed
  | codePointOutOfRange (literal : Text)
  | malformedEscape (literal : Text)
  deriving DecidableEq

namespace SourceFault

def message : SourceFault → Text
  | .unterminatedComment => "unterminated block comment"
  | .unterminatedString => "unterminated string literal"
  | .unterminatedRegex => "unterminated regular expression literal"
  | .unterminatedTemplate => "unterminated template literal"
  | .unexpectedCharacter c => Text.ofString "unexpected character " ++ Text.quoted [c]
  | .unbalanced token =>
    Text.ofString "unexpected " ++ Text.quoted token ++ Text.ofString ": unbalanced bracket"
  | .unclosed => "unexpected end of input: unclosed bracket, block or template literal"
  | .codePointOutOfRange literal =>
    Text.ofString "code point escape out of range in string literal " ++ literal
  | .malformedEscape literal =>
    Text.ofString "invalid escape sequence in string literal " ++ literal

end SourceFault

/-- a refused source text, with line and column if the fault has a place -/
structure SourceError where
  fault : SourceFault
  place : Option (Nat × Nat)
  deriving DecidableEq

namespace SourceError

def atPosition (p : Position) (fault : SourceFault) : SourceError :=
  ⟨fault, some (p.line, p.column)⟩

def line (e : SourceError) : Option Nat := e.place.map (·.1)

def column (e : SourceError) : Option Nat := e.place.map (·.2)

def message (e : SourceError) : Text := e.fault.message

end SourceError

/-- how two passes can disagree -/
inductive Inconsistency
  | staleOffsets
  | uncompiledBlock
  | unknownKind (kind : Split.Kind)
  | misplacedSplit (split : Split)
  | planShape (literals substitutions : Nat)
  deriving DecidableEq

namespace Inconsistency

def message : Inconsistency → Text
  | .staleOffsets => "offset scan needs a freshly parsed program; regenerate and re-parse it first"
  | .uncompiledBlock => "uncompiled module block reached the offset scanner"
  | .unknownKind kind => Text.ofString "unknown split kind " ++ kind.display
  | .misplacedSplit split => Text.ofString "overlapping or out-of-range split " ++ split.display
  | .planShape literals substitutions =>
    Text.ofString "splice plan shape mismatch: " ++ Text.ofNat literals ++
      Text.ofString " literals for " ++ Text.ofNat substitutions ++ Text.ofString " substitutions"

end Inconsistency

/-- why a file cannot be reached -/
inductive FileFault
  | missing
  | exists
  | isDirectory
  | notDirectory
  | tooManyLinks
  | nameTooLong
  /-- a reason that only the file system knows -/
  | refused (reason : Text)
  deriving DecidableEq

namespace FileFault

def message : FileFault → Text
  | .missing => "No such file or directory"
  | .exists => "File exists"
  | .isDirectory => "Is a directory"
  | .notDirectory => "Not a directory"
  | .tooManyLinks => "Too many levels of symbolic links"
  | .nameTooLong => "File name too long"
  | .refused reason => reason

end FileFault

/-- why a value is refused -/
inductive ValueFault
  | templateShape
  /-- a square bracket that is no part of a pair around a host -/
  | strayBracket
  | bracketedVersion4
  | futureAddress
  | unknownAddress (host : Text)
  | unstableHost (authority : Text)
  | relativeSupport (specifier : Text)
  | nullInPath
  deriving DecidableEq

namespace ValueFault

def message : ValueFault → Text
  | .templateShape => "template shape mismatch: quasis/substitutions"
  | .strayBracket => "Invalid IPv6 URL"
  | .bracketedVersion4 => "An IPv4 address cannot be in brackets"
  | .futureAddress => "IPvFuture address is invalid"
  | .unknownAddress host =>
    Text.quoted host ++ Text.ofString " does not appear to be an IPv4 or IPv6 address"
  | .unstableHost authority =>
    Text.ofString "netloc '" ++ authority ++
      Text.ofString "' contains invalid characters under NFKC normalization"
  | .relativeSupport specifier =>
    Text.ofString "shim specifier must be an absolute path to be served: " ++ Text.quoted specifier
  | .nullInPath => "embedded null byte"

end ValueFault

inductive Failure
  | source (e : SourceError)
  | inconsistent (i : Inconsistency)
  | value (v : ValueFault)
  | file (f : FileFault)
  /-- a link at the end of a path that leads back to itself -/
  | linkLoop (path : Text)
  /-- a character with a digit value that begins no number -/
  | strayDigit
  /-- a surrogate in a text that has to become bytes -/
  | notEncodable
  /-- bytes that are no text -/
  | notDecodable
  /-- a block body that is no text; the word says what it is -/
  | bodyNotText (found : Text)
  /-- the place where bodies are kept refuses to take one -/
  | storeRefused
  /-- an option was given and its value left out -/
  | valueLeftOut
  /-- the creation of a block whose class has no name -/
  | namelessBlock
  /-- a call of a class that has no name; `place` counts the texts that are printed before the
  name -/
  | namelessCall (place : Nat)
  deriving DecidableEq

namespace Failure

def message : Failure → Text
  | .source e => e.message
  | .inconsistent i => i.message
  | .value v => v.message
  | .file f => f.message
  | .linkLoop path => Text.ofString "Symlink loop from " ++ Text.quoted path
  | .strayDigit => "a character that merely has a digit value begins no number"
  | .notEncodable => "a surrogate cannot be written as bytes"
  | .notDecodable => "the bytes are no text"
  | .bodyNotText found => Text.ofString "module block body must be a string, got " ++ found
  | .storeRefused => "no blob store"
  | .valueLeftOut => "the value of an option is left out"
  | .namelessBlock => "unhashable type: 'list'"
  | .namelessCall place =>
    Text.ofString "sequence item " ++ Text.ofNat place ++
      Text.ofString ": expected str instance, list found"

/-- a fault found at a place of the source -/
def sourceAt (p : Position) (fault : SourceFault) : Failure := .source (.atPosition p fault)

end Failure

end Relocation
