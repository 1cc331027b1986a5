/-
The listing of a core: one line for every cell that is not empty.

A line holds the cell's place in at least four digits, its owner in a column of at least eight characters, and its
written form. Longer places and owners are not cut.
-/
import CoreWar.Core
import CoreWar.Cell.Text

namespace CoreWar

/-- in decimal, with zeros in front up to `width` digits -/
def zeroPadded (width n : Nat) : String := String.ofList ((toString n).toList.leftpad width '0')

/-- with blanks behind up to `width` characters -/
def leftAligned (width : Nat) (s : String) : String := String.ofList (s.toList.rightpad width ' ')

/-- how the listing names an owner: `p3.0` for process 0 of program 3 -/
def Owner.label (o : Owner) : String := "p" ++ toString o.program ++ "." ++ toString o.process

def Cell.ownerLabel (c : Cell) : String := c.owner.elim "--" Owner.label

def Core.listingLine (i : Nat) (c : Cell) : String :=
  zeroPadded 4 i ++ ": " ++ leftAligned 8 c.ownerLabel ++ " " ++ c.text ++ "\n"

/-- the lines of the listing, each with its end of line -/
def Core.listingLines (core : Core) : List String :=
  core.cells.toList.zipIdx.filterMap fun (c, i) => if c.isEmpty then none else some (Core.listingLine i c)

def Core.listing (core : Core) : String := String.join core.listingLines

end CoreWar
