/-
Turns: who is next, what the turn does, and when the game is over.

A step looks for the first live warrior from `turn` on, in circular load order, lets it execute one instruction and
passes the turn to the place behind it. A fault is contained: it kills the warrior that executed and is recorded, and
the core stays as it was. The first step that leaves fewer than two warriors alive concludes the game.
-/
import CoreWar.Battle
import CoreWar.Effect

namespace CoreWar

namespace Battle

variable {G : Type}

/-- opens the game; the first turn is the first warrior's -/
def start (b : Battle G) : Except Refusal (Battle G) :=
  if b.warriors.isEmpty then .error .noPrograms else .ok { b with turn := some 0 }

/-- the first live warrior of a row whose first place is `i`, with its place -/
def firstLive? (i : Nat) : List Warrior → Option (Warrior × Nat)
  | [] => none
  | w :: rest => if w.alive then some (w, i) else firstLive? (i + 1) rest

/-- the first live warrior from place `turn` on or, if there is none behind it, from the front -/
def nextLive? (b : Battle G) (turn : Nat) : Option (Warrior × Nat) :=
  (firstLive? turn (b.warriors.drop turn)).or (firstLive? 0 b.warriors)

/-- what an effect of the warrior at `pointer` is reported as, if it is -/
def effectEvent? (id : ProgramId) (pointer : Int64) : Effect → Option Event
  | .die => some (.executedDat id pointer)
  | .split start => some (.split id start)
  | .idle | .jump _ | .store _ _ => none

/-- lets the warrior `w` at place `i` execute one instruction, in the step counted last -/
def execute (b : Battle G) (w : Warrior) (i : Nat) : Battle G :=
  let (pointer, w) := w.next
  match b.core.effect b.rules w pointer with
  | .ok effect =>
    { b with
      core := effect.onCore b.core
      warriors := b.warriors.set i (effect.onWarrior w)
      log := b.log ++ (effectEvent? w.id pointer effect).toList }
  | .error fault =>
    { b with
      warriors := b.warriors.set i w.kill
      faults := b.faults ++ [⟨b.steps, w.id, fault⟩]
      log := b.log.push (.faulted w.id b.steps fault) }

/-- gives the warrior `w` at place `i` its turn and passes the turn on -/
def takeTurn (b : Battle G) (w : Warrior) (i : Nat) : Battle G :=
  let b := { b with steps := b.steps + 1, turn := some ((i + 1) % b.warriors.length) }
  b.execute w i

/-- concludes the game if it is decided; the flag tells whether it goes on -/
def conclude (b : Battle G) : Bool × Battle G :=
  match b.outcome with
  | .running => (true, b)
  | .winner id => (false, { b with concluded := true }.emit (.won id b.steps))
  | .draw => (false, { b with concluded := true }.emit (.drawn b.steps))

/-- one turn of the game; the flag tells whether the game goes on. A game that is not started, or concluded, does not,
and nothing is executed. -/
def step (b : Battle G) : Bool × Battle G :=
  match b.turn with
  | none => (false, b.emit .notStarted)
  | some turn =>
    if b.concluded then (false, b)
    else match b.nextLive? turn with
      | none => (false, { b with concluded := true })
      | some (w, i) => (b.takeTurn w i).conclude

/-- steps until the game does not go on, at most `budget` times -/
def run (b : Battle G) : Nat → Outcome × Battle G
  | 0 => (b.outcome, b)
  | budget + 1 =>
    match b.step with
    | (true, b) => b.run budget
    | (false, b) => (b.outcome, b)

end Battle

end CoreWar
