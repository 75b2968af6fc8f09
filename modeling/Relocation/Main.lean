import Relocation.Command.Line
import Relocation.Command.Script
import Relocation.Server

/-!
# The program

Reads the source file of a command line, and takes the steps of its script on the file system.
-/

namespace Relocation.CommandLine

/-- what is said about a command line that is not understood, or on request -/
def usage : String :=
  "usage: blockc [-v] compile SOURCE [-o OUTPUT] [--json] [--shim-specifier S] [--shim-binding B]\n" ++
  "       blockc [-v] extract SOURCE --meta-url URL [-o DIRECTORY] [--json]\n" ++
  "                   [--shim-specifier S] [--shim-binding B]\n" ++
  "       blockc [-v] serve DIRECTORY [--host HOST] [--port PORT] [--shim-specifier S] [--shim-binding B]\n"

/-- a text for a stream that takes anything; surrogates are replaced -/
def shown (t : Text) : String := String.ofList (t.map fun c => c.toChar?.getD '\uFFFD')

/-- the cause of an error that the operating system reports; 20 and 21, or their negatives, are its
numbers for two of them -/
def faultOf (e : IO.Error) : FileFault :=
  match e with
  | .noFileOrDirectory .. => .missing
  | .alreadyExists .. => .exists
  | .inappropriateType _ code details =>
    if code = 20 || code = 0 - 20 then .notDirectory
    else if code = 21 || code = 0 - 21 then .isDirectory
    else .refused details
  | e => .refused (toString e)

/-- the outcome of an access to the file system -/
def attempt {α : Type} (p : Path) (access : String → IO α) : IO (Except Failure α) :=
  if p.hasNull then return .error (.value .nullInPath)
  else match p.display.toString? with
    | none => return .error .notEncodable
    | some name =>
      try return .ok (← access name)
      catch e => return .error (.file (faultOf e))

def read (p : Path) : IO (Except Failure (List UInt8)) :=
  attempt p fun name => return (← IO.FS.readBinFile name).toList

def write (p : Path) (t : Text) : IO (Except Failure Unit) := do
  match ← attempt p (IO.FS.writeFile · (shown (if t.utf8?.isSome then t else []))) with
  | .error f => return .error f
  | .ok () => return if t.utf8?.isSome then .ok () else .error .notEncodable

/-- one step; there is no web server to listen with -/
def perform : Effect → IO (Except Failure Unit)
  | .print t => do
    match t.toString? with
    | none => return .error .notEncodable
    | some s => return .ok (← (← IO.getStdout).putStr s)
  | .report line => return .ok (← (← IO.getStderr).putStr (shown (line ++ Script.lineEnd)))
  | .makeDirectories p => attempt p (IO.FS.createDirAll ·)
  | .write p t => write p t
  | .prepare s => return Server.checkOptions s.options
  | .listen _ => return .error (.file (.refused "this program has no web server to serve with"))

def performAll : List Effect → IO (Except Failure Unit)
  | [] => return .ok ()
  | e :: r => do
    match ← perform e with
    | .ok () => performAll r
    | .error f => return .error f

def play (s : Script) : IO UInt32 := do
  let ending := match ← performAll s.effects with
    | .ok () => s.ending
    | .error f => .failed f
  match ending with
  | .exit code => return code.toUInt32
  | .failed f =>
    (← IO.getStderr).putStr (shown (Text.ofString "blockc: " ++ f.message ++ Script.lineEnd))
    return 1

def run (i : Invocation) : IO UInt32 := do
  let content ← match i.command.source? with
    | some p => read p
    | none => pure (.ok [])
  play (Script.ofInvocation i content)

end Relocation.CommandLine

open Relocation in
def main (args : List String) : IO UInt32 := do
  match Invocation.read (args.map Text.ofString) with
  | .ok i => CommandLine.run i
  | .error .help =>
    (← IO.getStdout).putStr CommandLine.usage
    return 0
  | .error .misuse =>
    (← IO.getStderr).putStr CommandLine.usage
    return 2
