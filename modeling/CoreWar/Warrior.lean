/-
Warriors: programs that have been loaded.

A warrior keeps the code it was loaded with, the rotation of its processes, and whether it is alive. A dead warrior
keeps its processes; they are not run any more.
-/
import CoreWar.Rotation
import CoreWar.Cell

namespace CoreWar

structure Warrior where
  id : ProgramId
  code : List Cell
  rotation : Rotation
  alive : Bool := true
deriving DecidableEq, Repr

namespace Warrior

/-- a live warrior with a single process at `start` -/
def load (id : ProgramId) (code : List Cell) (start : Int64) : Warrior :=
  { id, code, rotation := .single start }

/-- the pointers of its processes, in turn order -/
def processes (w : Warrior) : List Int64 := w.rotation.processes

/-- the number of its processes -/
def size (w : Warrior) : Nat := w.rotation.size

def next (w : Warrior) : Int64 × Warrior :=
  let (pointer, rotation) := w.rotation.next
  (pointer, { w with rotation })

def jump (target : Int64) (w : Warrior) : Warrior := { w with rotation := w.rotation.jump target }

def split (start : Int64) (w : Warrior) : Warrior := { w with rotation := w.rotation.split start }

def kill (w : Warrior) : Warrior := { w with alive := false }

/-- requests on a single warrior -/
inductive Order where
  | next
  | jump (target : Int64)
  | split (start : Int64)
  | kill
deriving DecidableEq, Repr

/-- carries out an order; `next` gives the pointer handed out -/
def obey (w : Warrior) : Order → Option Int64 × Warrior
  | .next => let (pointer, w) := w.next; (some pointer, w)
  | .jump target => (none, w.jump target)
  | .split start => (none, w.split start)
  | .kill => (none, w.kill)

end Warrior

end CoreWar
