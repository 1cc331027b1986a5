/-
Refusals: why a request to a battle was turned down.
-/
import CoreWar.Cell

namespace CoreWar

inductive Refusal where
  | emptyCore
  | noPrograms
  | emptyProgram
  | programTooLarge (length coreSize : Nat)
  | duplicateProgram (id : ProgramId)
  | occupied (address : Int)
  | noPlacement (attempts : Nat)
  /-- the random generator did not come up with a word that a draw accepts -/
  | noDraw
deriving DecidableEq, Repr

def Refusal.message : Refusal → String
  | .emptyCore => "core size must be positive"
  | .noPrograms => "no runnable programs"
  | .emptyProgram => "program has no instructions"
  | .programTooLarge length coreSize =>
    "program of " ++ toString length ++ " instructions does not fit a core of " ++ toString coreSize ++ " cells"
  | .duplicateProgram id => "program #" ++ toString id ++ " is already loaded"
  | .occupied address => "cell " ++ toString address ++ " is already occupied"
  | .noPlacement attempts => "no free placement found after " ++ toString attempts ++ " attempts"
  | .noDraw => "the random generator offered no acceptable word"

end CoreWar
