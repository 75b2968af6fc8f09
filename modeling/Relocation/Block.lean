import Relocation.Failure
import Relocation.Literal
import Relocation.Text.Base64
import Relocation.Text.Utf8

/-!
# Module blocks at run time

A block is its body and, from the first use on, a URL that a loader can import.  Making the URL is
the business of a materializer: it is asked at the first use and not again once it has answered;
when it refuses, nothing is kept.  A structured clone drops the class of a value, so a block travels
as a tagged record from which it is recovered.
-/

namespace Relocation

/-- plain data, as it comes out of a structured clone -/
inductive Value
  | null
  | bool (b : Bool)
  | integer (n : Int)
  | fraction
  | text (t : Text)
  | list (l : List Value)
  | record (fields : List (Text × Value))

namespace Value

/-- the word for a sort of data in messages -/
def word : Value → Text
  | .null => "NoneType"
  | .bool _ => "bool"
  | .integer _ => "int"
  | .fraction => "float"
  | .text _ => "str"
  | .list _ => "list"
  | .record _ => "dict"

/-- a field of a record; the last of several with one name -/
def field? (key : Text) : Value → Option Value
  | .record fields => (fields.reverse.find? (·.1 = key)).map (·.2)
  | _ => none

def text? : Value → Option Text
  | .text t => some t
  | _ => none

end Value

/-- ways of making a URL for a body -/
inductive Materializer
  /-- the body goes into the URL -/
  | dataUrl
  /-- the body goes into a fresh file -/
  | tempFile
  /-- any other way; what it answers may depend on how often its block has asked, and on how many
  calls of this sort there were before -/
  | custom (answer : (asked calls : Nat) → (body : Text) → Except Failure Text)

/-- a store that counts how often it is asked, and refuses some of its block's calls -/
def Materializer.counted (refuses : Nat → Bool) : Materializer :=
  .custom fun asked calls _ =>
    if refuses asked then .error .storeRefused
    else .ok (Text.ofString "mem:" ++ Text.ofNat (calls + 1))

/-- a call of a materializer -/
structure MaterializerCall where
  /-- the number of the block that it is made for -/
  block : Nat
  materializer : Materializer
  /-- the text that it is called with -/
  body : Text
  outcome : Except Failure Text

/-- what materializers share: the count of calls, the files they made, and what became of each
call -/
structure Depot where
  calls : Nat := 0
  files : List (Text × List UInt8) := []
  /-- why the file system refuses a file, by how many files were asked for before -/
  refusals : Nat → Option FileFault := fun _ => none
  filesAsked : Nat := 0
  /-- the calls of all materializers, in order -/
  log : List MaterializerCall := []

namespace Depot

def dataUrlPrefix : Text := "data:text/javascript;base64,"

/-- a URL that carries the body -/
def dataUrl (body : Text) : Except Failure Text :=
  match body.utf8? with
  | some bytes => .ok (dataUrlPrefix ++ Base64.encode bytes)
  | none => .error .notEncodable

/-- how the names of files with bodies begin and end -/
def fileNameStart : Text := "module-block-"

def fileNameEnd : Text := ".mjs"

/-- where files with bodies are kept -/
def directory : Text := "file:///tmp/"

/-- puts the body into a fresh file, which is made before the body is known to have bytes -/
def store (d : Depot) (body : Text) : Except Failure Text × Depot :=
  let d' := { d with filesAsked := d.filesAsked + 1 }
  match d.refusals d.filesAsked with
  | some fault => (.error (.file fault), d')
  | none =>
    let name := fileNameStart ++ Text.ofNat d.files.length ++ fileNameEnd
    match body.utf8? with
    | some bytes => (.ok (directory ++ name), { d' with files := (name, bytes) :: d.files })
    | none => (.error .notEncodable, { d' with files := (name, []) :: d.files })

/-- what a materializer answers to a block that has asked `asked` times before -/
def answer (d : Depot) (m : Materializer) (asked : Nat) (body : Text) :
    Except Failure Text × Depot :=
  match m with
  | .dataUrl => (dataUrl body, d)
  | .tempFile => d.store body
  | .custom answer => (answer asked d.calls body, { d with calls := d.calls + 1 })

/-- the calls that were made for a block -/
def callsFor (d : Depot) (block : Nat) : List MaterializerCall := d.log.filter (·.block = block)

/-- calls the materializer of a block -/
def materialize (d : Depot) (block : Nat) (m : Materializer) (body : Text) :
    Except Failure Text × Depot :=
  let (outcome, d') := d.answer m (d.callsFor block).length body
  (outcome, { d' with log := d.log ++ [⟨block, m, body, outcome⟩] })

end Depot

structure Block where
  body : Text
  materializer : Materializer := .tempFile
  url? : Option Text := none

namespace Block

def kind : Text := "module-block"

/-- a block with a body of plain data, which has to be a text -/
def ofValue (body : Value) (m : Materializer) : Except Failure Block :=
  match body with
  | .text t => .ok { body := t, materializer := m }
  | v => .error (.bodyNotText v.word)

def isMaterialized (b : Block) : Bool := b.url?.isSome

/-- the URL of the block with a number, with what asking for it changes -/
def url (b : Block) (number : Nat) (d : Depot) : Except Failure Text × Block × Depot :=
  match b.url? with
  | some u => (.ok u, b, d)
  | none =>
    match d.materialize number b.materializer b.body with
    | (.ok u, d') => (.ok u, { b with url? := some u }, d')
    | (.error e, d') => (.error e, b, d')

/-- the block as source text -/
def display (b : Block) : Text := Text.ofString "module \x7b " ++ b.body ++ Text.ofString " \x7d"

/-- the tagged record that a block travels as -/
def clone (b : Block) : Value := .record [("kind", .text kind), ("body", .text b.body)]

/-- the block that a value stands for, if it is a tagged record with a body -/
def recover? (v : Value) : Option Block :=
  match v.field? "kind", v.field? "body" with
  | some (.text k), some (.text body) => if k = kind then some { body } else none
  | _, _ => none

end Block

/-- what a program may take for a block: one, by its number, or plain data -/
inductive Candidate
  | block (number : Nat)
  | data (v : Value)

/-- the new block that is made of a candidate; none if the candidate itself is to be used -/
def Candidate.fixup? : Candidate → Option Block
  | .block _ => none
  | .data v => Block.recover? v

namespace Value

/-- surrogate halves that stand side by side become the character they stand for, as in a JSON
text -/
def joinAdjacent : Text → Text
  | .surrogate h :: .surrogate l :: r =>
    if (CodePoint.surrogate h).isHigh && (CodePoint.surrogate l).isLow then Literal.pairValue h l ::
      joinAdjacent r
    else .surrogate h :: joinAdjacent (.surrogate l :: r)
  | c :: r => c :: joinAdjacent r
  | [] => []

mutual
/-- a value that went through JSON: only its texts can change -/
def throughJson : Value → Value
  | .text t => .text (joinAdjacent t)
  | .list l => .list (throughJsonAll l)
  | .record fields => .record (throughJsonFields fields)
  | v => v

def throughJsonAll : List Value → List Value
  | [] => []
  | v :: r => throughJson v :: throughJsonAll r

def throughJsonFields : List (Text × Value) → List (Text × Value)
  | [] => []
  | (k, v) :: r => (joinAdjacent k, throughJson v) :: throughJsonFields r
end

end Value

end Relocation
