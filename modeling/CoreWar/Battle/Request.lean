/-
Requests to a battle, and sequences of them.

The five requests are all that changes a battle. `Battle.perform` answers one, `Battle.replay` a whole sequence; a
refused request is answered with the refusal and the sequence goes on.
-/
import CoreWar.Battle.Loading
import CoreWar.Battle.Turns

namespace CoreWar

inductive Request where
  | load (id : ProgramId) (process : ProcessId) (code : List Cell)
  | loadAt (id : ProgramId) (process : ProcessId) (code : List Cell) (address : Int)
  | start
  | step
  | run (budget : Nat)
deriving DecidableEq, Repr

inductive Reply where
  | done
  | refused (refusal : Refusal)
  | loadedAt (start : Nat)
  | goesOn (flag : Bool)
  | ended (outcome : Outcome)
deriving DecidableEq, Repr

namespace Battle

variable {G : Type} [WordSource G]

def perform (b : Battle G) : Request → Reply × Battle G
  | .load id process code =>
    match b.load id process code with
    | (.ok start, b) => (.loadedAt start, b)
    | (.error refusal, b) => (.refused refusal, b)
  | .loadAt id process code address =>
    match b.loadAt id process code address with
    | .ok b => (.done, b)
    | .error refusal => (.refused refusal, b)
  | .start =>
    match b.start with
    | .ok b => (.done, b)
    | .error refusal => (.refused refusal, b)
  | .step => let (flag, b) := b.step; (.goesOn flag, b)
  | .run budget => let (outcome, b) := b.run budget; (.ended outcome, b)

/-- the answers to a sequence of requests, in order, and the battle after it -/
def replay (b : Battle G) : List Request → List Reply × Battle G
  | [] => ([], b)
  | request :: rest =>
    let (reply, b) := b.perform request
    let (replies, b) := b.replay rest
    (reply :: replies, b)

end Battle

end CoreWar
