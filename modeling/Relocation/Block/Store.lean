import Relocation.Block

/-!
# Runs over named blocks

Steps on any number of blocks, one after another.  Every block that is made has a number, and names
stand for numbers; a new block under an old name takes the name over.
-/

namespace Relocation

structure BlockStore where
  depot : Depot := {}
  /-- every block that was made, in the order of numbers -/
  blocks : List Block := []
  /-- the number that a name stands for; of several the first counts -/
  names : List (Text × Nat) := []

namespace BlockStore

inductive Step
  | create (name : Text) (body : Value) (materializer : Materializer)
  /-- asks for the URL, as turning the block into a text does -/
  | url (name : Text)
  | body (name : Text)
  | kind (name : Text)
  | isMaterialized (name : Text)
  | display (name : Text)
  | fixup (name : Text)
  | clone (name target : Text)
  | recover (name : Text) (value : Value)

inductive Answer
  | done
  | text (t : Text)
  | flag (b : Bool)
  /-- the argument itself came back -/
  | same
  /-- the record that a clone was made from, after its way through JSON -/
  | cloned (record : Value)
  | recovered (block : Block)
  | failed (e : Failure)
  /-- there is no block of that name -/
  | unknown

/-- the number that a name stands for -/
def number? (s : BlockStore) (name : Text) : Option Nat := (s.names.find? (·.1 = name)).map (·.2)

/-- a new block under a name -/
def put (s : BlockStore) (name : Text) (b : Block) : BlockStore :=
  { s with blocks := s.blocks ++ [b], names := (name, s.blocks.length) :: s.names }

/-- does something with the block of a name -/
def withBlock (s : BlockStore) (name : Text) (f : Nat → Block → Answer × BlockStore) :
    Answer × BlockStore :=
  match s.number? name with
  | none => (.unknown, s)
  | some k =>
    match s.blocks[k]? with
    | none => (.unknown, s)
    | some b => f k b

/-- an answer about a block that changes nothing -/
def tell (s : BlockStore) (name : Text) (f : Block → Answer) : Answer × BlockStore :=
  s.withBlock name fun _ b => (f b, s)

/-- asks the block with a number for its URL -/
def ask (s : BlockStore) (k : Nat) (b : Block) : Answer × BlockStore :=
  match b.url k s.depot with
  | (outcome, b', d) =>
    (match outcome with | .ok u => .text u | .error e => .failed e,
      { s with depot := d, blocks := s.blocks.set k b' })

/-- takes a candidate for a block; a new block gets the name -/
def fixup (s : BlockStore) (name : Text) (c : Candidate) : Answer × BlockStore :=
  match c.fixup? with
  | none => (.same, s)
  | some b => (.recovered b, s.put name b)

def step (s : BlockStore) : Step → Answer × BlockStore
  | .create name body m =>
    match Block.ofValue body m with
    | .ok b => (.done, s.put name b)
    | .error e => (.failed e, s)
  | .url name => s.withBlock name s.ask
  | .body name => s.tell name fun b => .text b.body
  | .kind name => s.tell name fun _ => .text Block.kind
  | .isMaterialized name => s.tell name fun b => .flag b.isMaterialized
  | .display name => s.tell name fun b => .text b.display
  | .fixup name => s.withBlock name fun k _ => s.fixup name (.block k)
  | .clone name target =>
    s.withBlock name fun _ b =>
      let record := b.clone.throughJson
      (.cloned record, (s.fixup target (.data record)).2)
  | .recover name value => s.fixup name (.data value)

/-- the answers to a sequence of steps, each with the count of materializer calls after it -/
def run (s : BlockStore) : List Step → List (Answer × Nat)
  | [] => []
  | x :: r =>
    let (answer, s') := s.step x
    (answer, s'.depot.calls) :: run s' r

end BlockStore

end Relocation
