import Relocation.Command
import Relocation.Command.Arguments

/-!
# Command lines

A command line is options of the program, the name of a command, and the arguments of the command.
-/

namespace Relocation.Command

/-- names of commands -/
inductive Verb
  | compile
  | extract
  | serve
  deriving DecidableEq

namespace Verb

def all : List (Text × Verb) := [("compile", .compile), ("extract", .extract), ("serve", .serve)]

def ofText? (t : Text) : Option Verb := (all.find? (·.1 = t)).map (·.2)

end Verb

def helpOptions : OptionTable := [("-h", .help), ("--help", .help)]

def verboseOptions : OptionTable := [("-v", .verbose), ("--verbose", .verbose)]

/-- the options in front of a command's name -/
def programOptions : OptionTable := helpOptions ++ verboseOptions

def supportOptions : OptionTable :=
  [("--shim-specifier", .supportSpecifier), ("--shim-binding", .className)]

def outputOptions : OptionTable := [("-o", .output), ("--output", .output), ("--json", .json)]

def metaUrlOptions : OptionTable := [("--meta-url", .metaUrl)]

def listenOptions : OptionTable := [("--host", .host), ("--port", .portNumber)]

/-- the options of a command -/
def Verb.options : Verb → OptionTable
  | .compile => helpOptions ++ outputOptions ++ supportOptions
  | .extract => helpOptions ++ metaUrlOptions ++ outputOptions ++ supportOptions
  | .serve => helpOptions ++ listenOptions ++ supportOptions

/-- the names for compiled code that arguments give -/
def optionsOf (g : Given) : Options :=
  let standard : Options := {}
  ⟨(g.setting? .supportSpecifier).getD standard.supportSpecifier,
    (g.setting? .className).getD standard.className⟩

def outputOf (g : Given) : Output :=
  match g.setting? .output with
  | none => .print
  | some none => .nowhere
  | some (some t) => .path (.ofText t)

def jobOf (g : Given) (source : Text) : Job :=
  { source := .ofText source, output := outputOf g, json := g.has .json, options := optionsOf g }

def serviceOf (g : Given) (directory : Text) : Service :=
  let standard : Service := { directory := .ofText directory, options := optionsOf g }
  { standard with
    host := (g.setting? .host).getD standard.host
    portNumber := ((g.setting? .portNumber).map (·.bind Text.toInt?)).getD standard.portNumber }

/-- the command that arguments ask for; its operand may not be missing, nor the URL of the module
for extraction -/
def ofGiven (verb : Verb) (g : Given) : Except Stop Command :=
  match g.operand with
  | none => .error .misuse
  | some operand =>
    match verb with
    | .compile => .ok (.compile (jobOf g operand))
    | .extract =>
      match g.setting? .metaUrl with
      | some url => .ok (.extract (jobOf g operand) url)
      | none => .error .misuse
    | .serve => .ok (.serve (serviceOf g operand))

/-- the command with a name and a row of arguments; `stray` if there was an argument too many before
it -/
def read (stray : Bool) (name : Text) (row : List Text) : Except Stop Command := do
  match Verb.ofText? name with
  | none => .error .misuse
  | some verb =>
    let g ← Given.ofTexts verb.options row
    if stray || g.stray then .error .misuse else ofGiven verb g

end Command

namespace Invocation

/-- reads options of the program up to the name of a command; each argument comes with its text -/
def readFrom (verbose stray : Bool) : List (Argument × Text) → Except Stop Invocation
  | [] => .error .misuse
  | (.value name, _) :: r => do return ⟨verbose, ← Command.read stray name (r.map (·.2))⟩
  | (.separator, _) :: _ => .error .misuse
  | (.unknown, _) :: r => readFrom verbose true r
  | (.option f short attached, _) :: r =>
    match Cluster.ofOption? Command.programOptions f short attached with
    | none => .error .misuse
    | some cluster => if .help ∈ cluster.plain then .error .help else readFrom true stray r

/-- reads a command line -/
def read (row : List Text) : Except Stop Invocation :=
  match Argument.classifyAll? Command.programOptions row with
  | none => .error .misuse
  | some l => readFrom false false (l.zip row)

end Invocation

end Relocation
