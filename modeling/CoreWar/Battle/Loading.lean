/-
Loading programs into a battle.

A program is loaded at an address, or at a random one that is drawn again while the place is taken. Both stamp the code,
write it to the core at consecutive addresses, going round at the end, and append a warrior with one process at the
start. A refused request changes nothing, except that random draws stay drawn.
-/
import CoreWar.Battle
import CoreWar.Random.Source

namespace CoreWar

/-- the place of the first claimed cell among the `length` from `start` that must be free -/
def Core.firstOccupied? (core : Core) (placement : Placement) (start : Nat) : Nat → Option Nat
  | 0 => none
  | length + 1 =>
    if placement.checks core.size start && core.isOccupied start then some (core.index start)
    else core.firstOccupied? placement (start + 1) length

namespace Battle

variable {G : Type}

/-- whether the code could be loaded at all, wherever -/
def checkLoadable (b : Battle G) (id : ProgramId) (code : List Cell) : Except Refusal Unit :=
  if code.isEmpty then .error .emptyProgram
  else if b.core.size < code.length then .error (.programTooLarge code.length b.core.size)
  else if (b.warrior? id).isSome then .error (.duplicateProgram id)
  else .ok ()

/-- puts the code into the core at `start`, a place below the size, and its warrior last in turn order -/
def place (b : Battle G) (id : ProgramId) (process : ProcessId) (code : List Cell) (start : Nat) : Battle G :=
  let stamped := code.map (Cell.ownedBy id process)
  { b with
    core := b.core.writeFrom start stamped
    warriors := b.warriors ++ [.load id stamped (Int64.ofNat start)]
    log := b.log.push (.loaded id start stamped.length) }

/-- loads the code at an address, reduced into the core -/
def loadAt (b : Battle G) (id : ProgramId) (process : ProcessId) (code : List Cell) (address : Int) :
    Except Refusal (Battle G) := do
  b.checkLoadable id code
  let start := b.core.index address
  match b.core.firstOccupied? b.rules.placement start code.length with
  | some place => .error (.occupied place)
  | none => .ok (b.place id process code start)

variable [WordSource G]

/-- draws starts until the code, of this length, finds its place free, at most `attempts` times -/
def drawStart (b : Battle G) (length : Nat) : Nat → G → Except Refusal Nat × G
  | 0, g => (.error (.noPlacement b.rules.maxPlacementAttempts), g)
  | attempts + 1, g =>
    match Random.drawBelow? b.core.size g with
    | (none, g) => (.error .noDraw, g)
    | (some start, g) =>
      match b.core.firstOccupied? b.rules.placement start length with
      | none => (.ok start, g)
      | some _ => b.drawStart length attempts g

/-- loads the code at a random free place and gives its start -/
def load (b : Battle G) (id : ProgramId) (process : ProcessId) (code : List Cell) : Except Refusal Nat × Battle G :=
  match b.checkLoadable id code with
  | .error refusal => (.error refusal, b)
  | .ok () =>
    match b.drawStart code.length b.rules.maxPlacementAttempts b.generator with
    | (.error refusal, generator) => (.error refusal, { b with generator })
    | (.ok start, generator) => (.ok start, { b with generator }.place id process code start)

end Battle

end CoreWar
