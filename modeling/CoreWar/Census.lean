/-
Counting the cells of a core by owner.

`tally` counts how often each id occurs: it sorts the ids and counts the runs, so the counts stand in ascending order of
ids, each id once. A cell that an addition changed while it was unclaimed has no owner and is not empty either: it counts
for nobody.
-/
import CoreWar.Cell

namespace CoreWar

/-- counts per program, in ascending order of ids -/
abbrev Tally := List (ProgramId × Nat)

/-- one more occurrence of `id`, which is at most the first id counted -/
def Tally.add (id : ProgramId) : Tally → Tally
  | [] => [(id, 1)]
  | (first, n) :: rest => if id = first then (first, n + 1) :: rest else (id, 1) :: (first, n) :: rest

def tally (ids : List ProgramId) : Tally := ids.mergeSort.foldr Tally.add []

/-- the distinct ids among `ids`, in ascending order -/
def ascendingIds (ids : List ProgramId) : List ProgramId := (tally ids).map (·.1)

/-- how many cells each program owns -/
def cellsOwned (cells : List Cell) : Tally := tally (cells.filterMap Cell.ownerProgram)

def emptyCells (cells : List Cell) : Nat := cells.countP Cell.isEmpty

/-- the fraction of cells that are not empty; of no cells, zero -/
def occupancy (cells : List Cell) : Float :=
  if cells.isEmpty then 0 else Float.ofNat (cells.length - emptyCells cells) / Float.ofNat cells.length

end CoreWar
