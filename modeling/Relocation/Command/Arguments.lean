import Relocation.Text.Integer

/-!
# Arguments

How a row of arguments is read when a set of options is known.  An option is written with one dash
and a letter or with two dashes and a word.  A word may be cut short as long as it fits one option
only.  A value follows its option, or is attached to it: after an equals sign, or right after a
letter; letters that take no value may be written in one argument.  After a lone double dash nothing
is an option any more; attached to an option, a double dash stands for a value that is left out.
-/

namespace Relocation

/-- what an option is about -/
inductive Flag
  | help
  | verbose
  | output
  | json
  | supportSpecifier
  | className
  | metaUrl
  | host
  | portNumber
  deriving DecidableEq

namespace Flag

def takesValue : Flag → Bool
  | .help | .verbose | .json => false
  | _ => true

/-- may the option have this value? -/
def accepts (f : Flag) (value : Text) : Bool :=
  match f with
  | .portNumber => value.toInt?.isSome
  | _ => true

end Flag

/-- the known options by their spelling -/
abbrev OptionTable := List (Text × Flag)

namespace OptionTable

def flag? (table : OptionTable) (spelling : Text) : Option Flag :=
  (table.find? (·.1 = spelling)).map (·.2)

/-- the flags that a word cut short may stand for -/
def completions (table : OptionTable) (start : Text) : List Flag :=
  (table.filter fun o => start.isPrefixOf o.1).map (·.2)

end OptionTable

/-- what an argument is -/
inductive Argument
  | value (t : Text)
  | separator
  /-- `short` if it is written with one dash; `attached` is what follows it in the same argument -/
  | option (flag : Flag) (short : Bool) (attached : Option Text)
  | unknown
  deriving DecidableEq

namespace Argument

def separatorText : Text := "--"

/-- a minus sign with digits, which may have a point in or before them; a line feed at the end is
overlooked -/
def isNegativeNumber : Text → Bool
  | .char '-' :: r =>
    let r := if r.getLast? = some (.char '\n') then r.dropLast else r
    let (whole, fraction) := Text.cut (.char '.') r
    whole.all CodePoint.isDecimal && match fraction with
      | none => whole ≠ []
      | some fraction => fraction ≠ [] && fraction.all CodePoint.isDecimal
  | _ => false

/-- an argument with a dash that is no known option -/
def ofUnknown (t : Text) : Argument :=
  if isNegativeNumber t || t.contains (.char ' ') then .value t else .unknown

/-- an argument with one dash and more than a letter, not spelled like an option up to an equals
sign -/
def ofShort (table : OptionTable) (t : Text) : Argument :=
  match table.flag? (t.take 2) with
  | some f => .option f true (some (t.drop 2))
  | none => ofUnknown t

/-- an argument with two dashes that is not spelled like an option up to an equals sign; none if it
is ambiguous -/
def ofLong? (table : OptionTable) (t : Text) : Option Argument :=
  let (word, attached) := Text.cut (.char '=') t
  match table.completions word with
  | [] => some (ofUnknown t)
  | [f] => some (.option f false attached)
  | _ => none

/-- is a spelling written with one dash? -/
def isShort : Text → Bool
  | .char '-' :: .char '-' :: _ => false
  | _ => true

/-- an option with its value attached by an equals sign -/
def ofAssignment? (table : OptionTable) (t : Text) : Option Argument :=
  match Text.cut (.char '=') t with
  | (spelling, some v) => (table.flag? spelling).map fun f => .option f (isShort spelling) (some v)
  | (_, none) => none

/-- what an argument in front of the separator is; none if it is ambiguous -/
def classify? (table : OptionTable) (t : Text) : Option Argument :=
  match t with
  | .char '-' :: _ :: _ =>
    match table.flag? t with
    | some f => some (.option f (isShort t) none)
    | none =>
      match ofAssignment? table t with
      | some a => some a
      | none => if isShort t then some (ofShort table t) else ofLong? table t
  | t => some (.value t)

/-- what the arguments of a row are; none if one is ambiguous -/
def classifyAll? (table : OptionTable) : List Text → Option (List Argument)
  | [] => some []
  | t :: r =>
    if t = separatorText then some (.separator :: r.map .value)
    else match classify? table t, classifyAll? table r with
      | some a, some l => some (a :: l)
      | _, _ => none

end Argument

/-- the options that one argument gives -/
structure Cluster where
  /-- options without values, in order -/
  plain : List Flag
  /-- then an option with a value, and the value if it is in the same argument -/
  valued : Option (Flag × Option Text) := none

namespace Cluster

/-- letters behind an option that takes no value; none if they are no options -/
def ofLetters? (table : OptionTable) (f : Flag) : Text → Option Cluster
  | [] => none
  | c :: r =>
    match table.flag? [.char '-', c] with
    | none => none
    | some g =>
      if g.takesValue then
        some { plain := [f], valued := some (g, if r = [] then none else some r) }
      else if r = [] then some { plain := [f, g] }
      else (ofLetters? table g r).map fun l => { l with plain := f :: l.plain }

/-- an option with what is attached to it; none if nothing may be attached -/
def ofOption? (table : OptionTable) (f : Flag) (short : Bool) (attached : Option Text) :
    Option Cluster :=
  if f.takesValue then some { plain := [], valued := some (f, attached) }
  else match attached with
    | none => some { plain := [f] }
    | some letters => if short then ofLetters? table f letters else none

end Cluster

/-- why arguments are not carried out -/
inductive Stop
  /-- help was asked for -/
  | help
  | misuse
  deriving DecidableEq

/-- what a row of arguments says -/
structure Given where
  /-- the options with their values, the last one first; a value may have been left out -/
  settings : List (Flag × Option Text) := []
  /-- the argument that is no option -/
  operand : Option Text := none
  /-- is there an argument too many? -/
  stray : Bool := false

namespace Given

/-- the value of an option that was given -/
def setting? (g : Given) (f : Flag) : Option (Option Text) := (g.settings.find? (·.1 = f)).map (·.2)

def has (g : Given) (f : Flag) : Bool := (g.setting? f).isSome

def set (g : Given) (f : Flag) (value : Option Text) : Except Stop Given :=
  if f = .help then .error .help
  else if value.all f.accepts then .ok { g with settings := (f, value) :: g.settings }
  else .error .misuse

/-- sets options without values -/
def setAll (g : Given) : List Flag → Except Stop Given
  | [] => .ok g
  | f :: r => do (← g.set f (some [])).setAll r

/-- sets an option to a value that is attached to it; a separator in the place of the value leaves
it out -/
def setAttached (g : Given) (f : Flag) (value : Text) : Except Stop Given :=
  g.set f (if value = Argument.separatorText then none else some value)

/-- reads a row of arguments; a separator may stand on either side of the operand -/
def read (table : OptionTable) (g : Given) : List Argument → Except Stop Given
  | [] => .ok g
  | .value t :: r =>
    if g.operand.isSome then { g with stray := true }.read table r
    else match r with
      | .separator :: r => { g with operand := some t }.read table r
      | r => { g with operand := some t }.read table r
  | .separator :: r =>
    if g.operand.isSome then { g with stray := true }.read table r
    else match r with
      | .value t :: r => { g with operand := some t }.read table r
      | r => { g with stray := true }.read table r
  | .unknown :: r => { g with stray := true }.read table r
  | .option f short attached :: r =>
    match Cluster.ofOption? table f short attached with
    | none => .error .misuse
    | some cluster =>
      match cluster.valued, r with
      | some (h, some v), r => do (← (← g.setAll cluster.plain).setAttached h v).read table r
      | some (h, none), .value v :: r =>
        do (← (← g.setAll cluster.plain).set h (some v)).read table r
      | some (_, none), _ => .error .misuse
      | none, r => do (← g.setAll cluster.plain).read table r

/-- what a row of arguments says under a set of options -/
def ofTexts (table : OptionTable) (row : List Text) : Except Stop Given :=
  match Argument.classifyAll? table row with
  | none => .error .misuse
  | some l => ({} : Given).read table l

end Given

end Relocation
