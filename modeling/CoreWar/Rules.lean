/-
The rules a battle is fought under.
-/

namespace CoreWar

/-- which cells a new program must find free: all it will cover, or only those it reaches without going round the end
of the core -/
inductive Placement where
  | wrapping
  | unwrapped
deriving DecidableEq, Repr

/-- whether a cell at `address`, not yet reduced into a core of `size` cells, has to be free -/
def Placement.checks (size address : Nat) : Placement → Bool
  | .wrapping => true
  | .unwrapped => decide (address < size)

structure Rules where
  coreSize : Nat := 100
  placement : Placement := .wrapping
  /-- how many random places are tried for a program -/
  maxPlacementAttempts : Nat := 10000
  /-- whether SPL splits; if not, it does nothing -/
  splitProcesses : Bool := true
  /-- a program with this many processes does not split any more -/
  maxProcesses : Nat := 64
deriving DecidableEq, Repr

end CoreWar
