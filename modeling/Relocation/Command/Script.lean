import Relocation.Command
import Relocation.Compile
import Relocation.Diagnostic
import Relocation.Text.Utf8

/-!
# Scripts

What a command does, as a list of steps: everything is decided once the source file has been read.
The steps are taken in order and the first that fails is the last one.
-/

namespace Relocation

inductive Effect
  /-- prints a text as it is -/
  | print (t : Text)
  /-- reports a line -/
  | report (line : Text)
  /-- makes a directory with all that is missing above it -/
  | makeDirectories (p : Path)
  | write (p : Path) (t : Text)
  /-- sees that a server can be made for the directory of a service -/
  | prepare (s : Service)
  | listen (s : Service)

inductive Ending
  | exit (code : Nat)
  | failed (f : Failure)
  deriving DecidableEq

structure Script where
  effects : List Effect
  ending : Ending

/-- the line that tells a notice -/
def Notice.line : Notice → Text
  | .callGuarded => "DEBUG modblock.blockc.transform.call_sites: rewrote dynamic import() call"
  | .bodyPlanned length splits =>
    Text.ofString "DEBUG modblock.blockc.transform.compiler: module block body: " ++
      Text.ofNat length ++ Text.ofString " chars, " ++ Text.ofNat splits ++ Text.ofString " splits"
  | .unitCompiled length outputLength =>
    Text.ofString "DEBUG modblock.blockc.transform.compiler: compiled unit: " ++
      Text.ofNat length ++ Text.ofString " chars in, " ++ Text.ofNat outputLength ++
        Text.ofString " chars out"

namespace Script

def lineEnd : Text := "\n"

/-- reports that are given only when asked for -/
def tell (verbose : Bool) (lines : List Text) : List Effect :=
  if verbose then lines.map .report else []

/-- writes a file and tells it -/
def writeTold (verbose : Bool) (p : Path) (t : Text) : List Effect :=
  .write p t :: tell verbose [Text.ofString "INFO modblock.blockc.blockc: wrote " ++ p.display]

/-- says what is wrong with the source -/
def complain (job : Job) (d : Diagnostic) : Effect :=
  let file := some job.source.display
  if job.json then
    let report : Json := .object [("exit_code", .number 1), ("diagnostics", .list [d.toJson file])]
    .print (report.render ++ lineEnd)
  else .report (d.display file)

/-- the diagnostic for a source that cannot be read -/
def unreadable (job : Job) (f : FileFault) : Diagnostic where
  message := Text.ofString "cannot read source: " ++ f.message
  code := some "source-unreadable"
  phase := some "driver"
  span := { file := some job.source.display }

/-- what comes of a source file: its result is delivered, its fault complained about -/
def ofSource {α : Type} (verbose : Bool) (job : Job) (content : Except Failure (List UInt8))
    (compute : Text → Noted α) (deliver : α → Script) : Script :=
  match content with
  | .error (.file f) => ⟨[complain job (unreadable job f)], .exit 1⟩
  | .error f => ⟨[], .failed f⟩
  | .ok bytes =>
    match Text.ofFile? bytes with
    | none => ⟨[], .failed .notDecodable⟩
    | some source =>
      let noted := compute source
      let notices := tell verbose (noted.notices.map Notice.line)
      match noted.result with
      | .ok a => ⟨notices ++ (deliver a).effects, (deliver a).ending⟩
      | .error (.source e) =>
        ⟨notices ++ [complain job (.ofSourceError e (some job.source.display))], .exit 1⟩
      | .error f => ⟨notices, .failed f⟩

/-- a compiled module, written or printed -/
def deliverModule (verbose : Bool) (job : Job) (text : Text) : Script :=
  match job.output with
  | .path p => ⟨writeTold verbose p (text ++ lineEnd), .exit 0⟩
  | .nowhere => ⟨[], .failed .valueLeftOut⟩
  | .print => ⟨[.print (text ++ lineEnd)], .exit 0⟩

/-- the name of the file for a block -/
def blockFile (k : Nat) : Text := Text.ofString "block-" ++ Text.ofNat k ++ Text.ofString ".mjs"

/-- numbered bodies, printed -/
def printBodies (job : Job) (numbered : List (Text × Nat)) : List Effect :=
  if job.json then
    let one : Text × Nat → Json :=
      fun (body, k) => .object [("index", .number k), ("body", .text body)]
    [.print ((Json.list (numbered.map one)).render ++ lineEnd)]
  else numbered.map fun (body, k) =>
    .print (Text.ofString "// block " ++ Text.ofNat k ++ lineEnd ++ body ++ lineEnd)

/-- the bodies of blocks, numbered from one, each written or printed -/
def deliverBodies (verbose : Bool) (job : Job) (bodies : List Text) : Script :=
  let numbered := bodies.zipIdx 1
  match job.output with
  | .path p =>
    ⟨.makeDirectories p ::
      numbered.flatMap fun (body, k) => writeTold verbose (p.child (blockFile k)) (body ++ lineEnd),
      .exit 0⟩
  | .nowhere => ⟨[], .failed .valueLeftOut⟩
  | .print => ⟨printBodies job numbered, .exit 0⟩

/-- where a service is found -/
def serving (s : Service) : Text :=
  Text.ofString "INFO modblock.blockc.server: serving " ++ s.directory.display ++
    Text.ofString " on http://" ++ s.host.getD Json.leftOut ++ .char ':' ::
    (s.portNumber.map Text.ofInt).getD Json.leftOut

/-- what an invocation does; `content` is what reading its source file gave -/
def ofInvocation (i : Invocation) (content : Except Failure (List UInt8)) : Script :=
  match i.command with
  | .compile job =>
    ofSource i.verbose job content (Compile.text job.options) (deliverModule i.verbose job)
  | .extract job (some url) =>
    ofSource i.verbose job content (Compile.bodies job.options · url) (deliverBodies i.verbose job)
  | .extract job none =>
    ofSource i.verbose job content (Compile.bodiesFilled job.options · Substitution.valueUnplaced)
      (deliverBodies i.verbose job)
  | .serve s => ⟨.prepare s :: tell i.verbose [serving s] ++ [.listen s], .exit 0⟩

end Script

end Relocation
