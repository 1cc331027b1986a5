/-
Events: what a battle reports while it goes on.

An event has a level, a message and named values. Addresses in events are raw, as the process held them.
-/
import CoreWar.Fault

namespace CoreWar

inductive Event where
  | loaded (program : ProgramId) (start : Nat) (length : Nat)
  | executedDat (program : ProgramId) (address : Int64)
  | split (program : ProgramId) (start : Int64)
  | faulted (program : ProgramId) (step : Nat) (fault : Fault)
  | notStarted
  | won (winner : ProgramId) (steps : Nat)
  | drawn (steps : Nat)
deriving DecidableEq, Repr

namespace Event

inductive Level where
  | debug
  | info
  | warn
deriving DecidableEq, Repr

def Level.label : Level → String
  | .debug => "DEBUG"
  | .info => "INFO"
  | .warn => "WARN"

inductive Value where
  | number (n : Int)
  | text (s : String)
deriving DecidableEq, Repr

def Value.toText : Value → String
  | .number n => toString n
  | .text s => s

def level : Event → Level
  | loaded .. | executedDat .. | split .. => .debug
  | won .. | drawn .. => .info
  | faulted .. | notStarted => .warn

def message : Event → String
  | loaded .. => "spawned program"
  | executedDat .. => "executed DAT"
  | split .. => "split process"
  | faulted .. => "program faulted"
  | notStarted => "step called before start"
  | won .. => "game finished"
  | drawn .. => "game finished with no survivors"

def values : Event → List (String × Value)
  | loaded program start length => [("program", .number program), ("start", .number start), ("len", .number length)]
  | executedDat program address => [("program", .number program), ("address", .number address.toInt)]
  | split program start => [("program", .number program), ("at", .number start.toInt)]
  | faulted program step fault => [("program", .number program), ("step", .number step), ("fault", .text fault.message)]
  | notStarted => []
  | won winner steps => [("winner", .number winner), ("steps", .number steps)]
  | drawn steps => [("steps", .number steps)]

/-- the event on one line: level, message and values -/
def line (e : Event) : String :=
  let values := e.values.map fun (name, value) => " " ++ name ++ "=" ++ value.toText
  e.level.label ++ " " ++ e.message ++ String.join values

end Event

end CoreWar
