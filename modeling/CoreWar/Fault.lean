/-
Faults: why executing an instruction killed the program that executed it.

Addresses in faults are reduced into the core.
-/
import CoreWar.Cell.Text

namespace CoreWar

inductive Fault where
  | ownershipMismatch (address : Int) (owner : Option ProgramId) (executor : ProgramId)
  | missingMode (address : Int) (side : Side)
deriving DecidableEq, Repr

/-- how a message names a program or the lack of one -/
def ownerName : Option ProgramId → String
  | some id => "program #" ++ toString id
  | none => "nobody"

def Fault.message : Fault → String
  | .ownershipMismatch address owner executor =>
    "code at " ++ toString address ++ " (owned by " ++ ownerName owner ++ ") is not owned by executing program #"
      ++ toString executor
  | .missingMode address side =>
    "instruction at " ++ toString address ++ " has no addressing mode for its " ++ side.letter ++ " operand"

/-- a fault with the step, counted from one, at which it happened and the program it killed -/
structure FaultRecord where
  step : Nat
  program : ProgramId
  fault : Fault
deriving DecidableEq, Repr

end CoreWar
