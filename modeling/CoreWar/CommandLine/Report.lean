/-
The report on a battle: who won, how full the core is, what belongs to whom, who died of what, and on demand the listing
of the core. It depends on the battle alone, not on how it was shown.
-/
import CoreWar.Battle
import CoreWar.Core.Listing
import CoreWar.Decimal

namespace CoreWar

namespace CommandLine

variable {G : Type}

def idSet (ids : List ProgramId) : String := "\x7b" ++ ", ".intercalate (ids.map toString) ++ "\x7d"

def outcomeLine (b : Battle G) : String :=
  let steps := toString b.steps ++ " steps"
  match b.outcome with
  | .winner id => "winner: program #" ++ toString id ++ " after " ++ steps
  | .draw => "draw: no survivors after " ++ steps
  | .running => "no winner after " ++ steps ++ "; alive: " ++ idSet b.aliveIds

def occupancyLine (b : Battle G) : String :=
  "  core occupancy: " ++ Decimal.onePlace (occupancy b.core.cells.toList * 100) ++ "%"

def ownedLine (entry : ProgramId × Nat) : String :=
  "  program #" ++ toString entry.1 ++ ": " ++ toString entry.2 ++ " cells"

def faultLine (r : FaultRecord) : String :=
  "  step " ++ toString r.step ++ ": program #" ++ toString r.program ++ " " ++ r.fault.message

def reportLines (b : Battle G) : List String :=
  outcomeLine b :: occupancyLine b :: (cellsOwned b.core.cells.toList).map ownedLine ++ b.faults.map faultLine

/-- the report, with the listing of the core behind it if asked for -/
def report (b : Battle G) (disassemble : Bool) : String :=
  String.join ((reportLines b).map (· ++ "\n")) ++ if disassemble then b.core.listing else ""

end CommandLine

end CoreWar
