import Relocation.Command.Line
import Relocation.Command.Script
import Relocation.FileTree.Access
import Relocation.Server

/-!
# Machines

What a command line works on: a file tree with a working directory, what has been printed and
reported so far, and the services that were started.
-/

namespace Relocation

structure Machine where
  tree : FileTree
  cwd : Location := []
  printed : Text := []
  reported : Text := []
  started : List Service := []

namespace Machine

/-- the bytes of a file -/
def read (m : Machine) (p : Path) : Except Failure (List UInt8) :=
  if p.hasNull then .error (.value .nullInPath)
  else match m.tree.read m.cwd p with
    | .ok bytes => .ok bytes
    | .error f => .error (.file f)

/-- writes a text file; it is made or emptied before the text is known to have bytes -/
def write (m : Machine) (p : Path) (t : Text) : Machine × Option Failure :=
  if p.hasNull then (m, some (.value .nullInPath))
  else match t.utf8? with
    | some bytes =>
      match m.tree.write m.cwd p bytes with
      | .ok tree => ({ m with tree }, none)
      | .error f => (m, some (.file f))
    | none =>
      match m.tree.write m.cwd p [] with
      | .ok tree => ({ m with tree }, some .notEncodable)
      | .error f => (m, some (.file f))

def makeDirectories (m : Machine) (p : Path) : Machine × Option Failure :=
  if p.hasNull then (m, some (.value .nullInPath))
  else
    let (tree, fault) := m.tree.makeDirectories m.cwd p
    ({ m with tree }, fault.map .file)

/-- one step; a text without bytes is not printed at all -/
def perform (m : Machine) : Effect → Machine × Option Failure
  | .print t =>
    if t.utf8?.isSome then ({ m with printed := m.printed ++ t }, none) else (m, some .notEncodable)
  | .report line => ({ m with reported := m.reported ++ line ++ Script.lineEnd }, none)
  | .makeDirectories p => m.makeDirectories p
  | .write p t => m.write p t
  | .prepare s =>
    match Server.create m.tree m.cwd s.directory s.options with
    | .ok _ => (m, none)
    | .error f => (m, some f)
  | .listen s => ({ m with started := m.started ++ [s] }, none)

/-- steps in order, up to the first that fails -/
def performAll (m : Machine) : List Effect → Machine × Option Failure
  | [] => (m, none)
  | e :: r =>
    match m.perform e with
    | (m', none) => m'.performAll r
    | (m', some f) => (m', some f)

/-- carries out a script -/
def play (m : Machine) (s : Script) : Machine × Ending :=
  match m.performAll s.effects with
  | (m', none) => (m', s.ending)
  | (m', some f) => (m', .failed f)

/-- what reading the source file of a command gives; a command without one reads nothing -/
def content (m : Machine) (c : Command) : Except Failure (List UInt8) :=
  match c.source? with
  | some p => m.read p
  | none => .ok []

/-- carries out an invocation -/
def run (m : Machine) (i : Invocation) : Machine × Ending :=
  m.play (Script.ofInvocation i (m.content i.command))

/-- carries out a row of arguments; what cannot be read as an invocation changes nothing -/
def obey (m : Machine) (row : List Text) : Machine × Except Stop Ending :=
  match Invocation.read row with
  | .error stop => (m, .error stop)
  | .ok i =>
    let (m', ending) := m.run i
    (m', .ok ending)

end Machine

end Relocation
