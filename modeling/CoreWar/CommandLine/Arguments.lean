/-
Reading the arguments of the command line.

Arguments are read from left to right and the first error is reported. The value of a setting is attached (`--seed=5`)
or follows as an argument of its own. A value of the second kind is pending until the next option or the end: only then
is it looked at, so an argument that is nobody's option is reported before a bad value in front of it.
-/
import CoreWar.CommandLine.Usage

namespace CoreWar

namespace CommandLine

/-- an argument by its form -/
inductive Argument where
  /-- two dashes: no options after it -/
  | terminator
  | long (name : String) (value : Option String)
  /-- one dash and a letter; further letters do not matter -/
  | short (letter : Char)
  | plain (text : String)
deriving DecidableEq, Repr

/-- a single dash is plain; the name of a long option ends at its first equals sign -/
def Argument.ofString (text : String) : Argument :=
  match text.toList with
  | ['-', '-'] => .terminator
  | '-' :: '-' :: rest =>
    let name := String.ofList (rest.takeWhile (· != '='))
    match rest.dropWhile (· != '=') with
    | [] => .long name none
    | _ :: value => .long name (some (String.ofList value))
  | '-' :: letter :: _ => .short letter
  | _ => .plain text

/-- what the arguments ask for -/
inductive Invocation where
  | help
  | battle (options : Options)
deriving DecidableEq, Repr

/-- what has been read so far -/
structure Reading where
  options : Options := {}
  /-- the settings and switches that were given -/
  settings : List Setting := []
  switches : List Switch := []
  /-- the setting whose value is awaited or, once it has come, still to be looked at -/
  pending : Option (Setting × Option String) := none
deriving DecidableEq, Repr

namespace Reading

/-- the number a setting is given -/
def number (setting : Setting) (text : String) : Except UsageError Nat :=
  match Numeral.read text with
  | .ok n => .ok n
  | .error reason => .error (.badNumber setting text reason)

/-- the options with a setting changed; the names of programs are separated by commas, and all but the first list of
them add to those given before -/
def set (r : Reading) (setting : Setting) (text : String) : Except UsageError Options := do
  let o := r.options
  match setting with
  | .programs =>
    let names := text.splitOn ","
    return { o with programs := if setting ∈ r.settings then o.programs ++ names else names }
  | .seed => return { o with seed := (← number setting text).toUInt64 }
  | .coreSize => return { o with coreSize := ← number setting text }
  | .maxSteps => return { o with maxSteps := ← number setting text }
  | .width => return { o with width := ← number setting text }
  | .delay => return { o with delay := ← number setting text }

/-- gives a setting its value; only the programs can be given more than once -/
def assign (r : Reading) (setting : Setting) (text : String) : Except UsageError Reading := do
  if setting ∈ r.settings ∧ setting ≠ .programs then throw (.repeatedSetting setting)
  return { r with options := ← r.set setting text, settings := setting :: r.settings }

/-- deals with the setting that is pending, if one is -/
def settle (r : Reading) : Except UsageError Reading :=
  match r.pending with
  | none => .ok r
  | some (setting, none) => .error (.missingValue setting)
  | some (setting, some text) => { r with pending := none }.assign setting text

/-- a setting, with its value if that is attached -/
def openSetting (r : Reading) (setting : Setting) (value : Option String) : Except UsageError Reading := do
  let r ← r.settle
  match value with
  | some text => r.assign setting text
  | none => return { r with pending := some (setting, none) }

/-- a switch, which takes no value and is given once -/
def openSwitch (r : Reading) (switch : Switch) (value : Option String) : Except UsageError Reading := do
  if let some text := value then throw (.unexpectedValue switch.name text)
  let r ← r.settle
  if switch ∈ r.switches then throw (.repeatedSwitch switch)
  return { r with options := r.options.turnOn switch, switches := switch :: r.switches }

/-- an argument that is no option: the value that is awaited, or one too many -/
def takePlain (r : Reading) (text : String) : Except UsageError Reading :=
  match r.pending with
  | some (setting, none) => .ok { r with pending := some (setting, some text) }
  | _ => .error (.unexpectedArgument text)

/-- help is given if nothing before it is wrong -/
def finishHelp (r : Reading) : Except UsageError Invocation := do
  let _ ← r.settle
  return .help

def finish (r : Reading) : Except UsageError Invocation := do
  return .battle (← r.settle).options

/-- reads the remaining arguments -/
def read (r : Reading) : List String → Except UsageError Invocation
  | [] => r.finish
  | text :: rest =>
    match Argument.ofString text with
    | .terminator =>
      match rest with
      | [] => r.finish
      | extra :: _ => .error (.unexpectedArgument extra)
    | .long "help" none | .short 'h' => r.finishHelp
    | .long "help" (some value) => .error (.unexpectedValue "help" value)
    | .long name value =>
      match Setting.ofName? name, Switch.ofName? name with
      | some setting, _ => do (← r.openSetting setting value).read rest
      | none, some switch => do (← r.openSwitch switch value).read rest
      | none, none => .error (.unexpectedArgument ("--" ++ name))
    | .short letter => .error (.unexpectedArgument (String.ofList ['-', letter]))
    | .plain text => do (← r.takePlain text).read rest

end Reading

/-- reads the arguments of the command line, without the name of the program -/
def readArguments (args : List String) : Except UsageError Invocation := Reading.read {} args

end CommandLine

end CoreWar
