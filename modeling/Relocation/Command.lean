import Relocation.Artifact
import Relocation.Path

/-!
# Commands

What the program can be asked to do: compile a module, extract the bodies of its blocks, serve a
directory.
-/

namespace Relocation

/-- where results go -/
inductive Output
  | print
  | path (p : Path)
  /-- a path was asked for and left out -/
  | nowhere
  deriving DecidableEq

/-- what compiling and extracting have in common -/
structure Job where
  source : Path
  output : Output := .print
  /-- report in JSON -/
  json : Bool := false
  options : Options := {}

/-- what to serve, and where to listen; host and port number may have been left out -/
structure Service where
  directory : Path
  host : Option Text := some "127.0.0.1"
  portNumber : Option Int := some 8080
  options : Options := {}

inductive Command
  | compile (job : Job)
  /-- the bodies are those that a module at `metaUrl` creates, if the URL was not left out -/
  | extract (job : Job) (metaUrl : Option Text)
  | serve (service : Service)

/-- a command, and whether it tells what it does -/
structure Invocation where
  verbose : Bool
  command : Command

namespace Command

/-- the file that a command reads -/
def source? : Command → Option Path
  | .compile job => some job.source
  | .extract job _ => some job.source
  | .serve _ => none

end Command

end Relocation
