/-
The options of the command line: what can be set, what can be switched on, and what holds if nothing is said.
-/
import CoreWar.Rules

namespace CoreWar

namespace CommandLine

structure Options where
  seed : UInt64 := 0
  coreSize : Nat := 200
  /-- names of built-in programs, in turn order -/
  programs : List String := ["imp", "dwarf"]
  maxSteps : Nat := 10000
  showMap : Bool := false
  width : Nat := 20
  color : Bool := false
  delay : Nat := 0
  unwrapped : Bool := false
  noSplit : Bool := false
  disassemble : Bool := false
deriving DecidableEq, Repr

/-- the options that take a value -/
inductive Setting where
  | seed
  | coreSize
  | programs
  | maxSteps
  | width
  | delay
deriving DecidableEq, Repr

/-- the options that are either given or not -/
inductive Switch where
  | showMap
  | color
  | unwrapped
  | noSplit
  | disassemble
deriving DecidableEq, Repr

def Setting.all : List Setting := [.seed, .coreSize, .programs, .maxSteps, .width, .delay]

def Switch.all : List Switch := [.showMap, .color, .unwrapped, .noSplit, .disassemble]

def Setting.name : Setting → String
  | .seed => "seed"
  | .coreSize => "core-size"
  | .programs => "programs"
  | .maxSteps => "max-steps"
  | .width => "width"
  | .delay => "delay-ms"

/-- how usage messages call the value of a setting -/
def Setting.valueName : Setting → String
  | .seed => "SEED"
  | .coreSize => "CORE_SIZE"
  | .programs => "PROGRAMS"
  | .maxSteps => "MAX_STEPS"
  | .width => "WIDTH"
  | .delay => "DELAY_MS"

def Switch.name : Switch → String
  | .showMap => "show"
  | .color => "color"
  | .unwrapped => "unwrapped-placement"
  | .noSplit => "no-split"
  | .disassemble => "disassemble"

/-- how usage messages write a setting -/
def Setting.usage (s : Setting) : String := "--" ++ s.name ++ " <" ++ s.valueName ++ ">"

def Switch.usage (s : Switch) : String := "--" ++ s.name

def Setting.ofName? (name : String) : Option Setting := Setting.all.find? (·.name == name)

def Switch.ofName? (name : String) : Option Switch := Switch.all.find? (·.name == name)

/-- the options with a switch turned on -/
def Options.turnOn (o : Options) : Switch → Options
  | .showMap => { o with showMap := true }
  | .color => { o with color := true }
  | .unwrapped => { o with unwrapped := true }
  | .noSplit => { o with noSplit := true }
  | .disassemble => { o with disassemble := true }

/-- the rules of the battle that the options ask for -/
def Options.rules (o : Options) : Rules :=
  { coreSize := o.coreSize
    placement := if o.unwrapped then .unwrapped else .wrapping
    splitProcesses := !o.noSplit }

end CommandLine

end CoreWar
