/-
Battles: the state of a game and what can be read off it.

Warriors stand in load order. `turn` is the place of the warrior to look at first for the next turn, and is absent until
the game is started; `log` and `faults` only grow, at their ends. Who is alive decides the outcome; `concluded` records
that a step has seen the game decided, and from then on no instruction is executed.
-/
import CoreWar.Event
import CoreWar.Refusal
import CoreWar.Warrior
import CoreWar.Core
import CoreWar.Rules
import CoreWar.Census

namespace CoreWar

inductive Outcome where
  /-- two or more are alive, or nobody has been loaded -/
  | running
  | draw
  | winner (id : ProgramId)
deriving DecidableEq, Repr

/-- a game in progress; `G` is the type of its random generator -/
structure Battle (G : Type) where
  rules : Rules
  core : Core
  generator : G
  warriors : List Warrior := []
  turn : Option Nat := none
  /-- the number of instructions executed -/
  steps : Nat := 0
  concluded : Bool := false
  faults : List FaultRecord := []
  log : Array Event := #[]
deriving DecidableEq, Repr

namespace Battle

variable {G : Type}

/-- a battle before anyone is loaded; a core needs at least one cell -/
def ofRules (rules : Rules) (generator : G) : Except Refusal (Battle G) :=
  if rules.coreSize = 0 then .error .emptyCore
  else .ok { rules, core := .blank rules.coreSize, generator }

def isStarted (b : Battle G) : Bool := b.turn.isSome

def warrior? (b : Battle G) (id : ProgramId) : Option Warrior := b.warriors.find? (·.id == id)

/-- the ids of the live warriors, ascending -/
def aliveIds (b : Battle G) : List ProgramId := ascendingIds ((b.warriors.filter (·.alive)).map (·.id))

def outcome (b : Battle G) : Outcome :=
  match b.warriors.dropWhile (!·.alive) with
  | [] => if b.warriors.isEmpty then .running else .draw
  | w :: rest => if rest.any (·.alive) then .running else .winner w.id

def emit (event : Event) (b : Battle G) : Battle G := { b with log := b.log.push event }

end Battle

end CoreWar
