/-
The ownership map: a picture of who owns which cell.

Every cell is drawn as a glyph that depends on its owner alone, in rows of a given width. A width of zero counts as one.
Without colour a glyph is the last digit of the owner's id and a blank, with colour a blank on one of four backgrounds.
-/
import CoreWar.Cell

namespace CoreWar

namespace OwnershipMap

structure Style where
  width : Nat := 20
  color : Bool := false
deriving DecidableEq, Repr

/-- the escape sequences that switch the background on, cycled through by program id: red, blue, yellow, green -/
def background (id : ProgramId) : String :=
  match id % 4 with
  | 0 => "\x1b[41m"
  | 1 => "\x1b[44m"
  | 2 => "\x1b[43m"
  | _ => "\x1b[42m"

/-- the escape sequence that ends a background -/
def plain : String := "\x1b[0m"

def glyph (color : Bool) (c : Cell) : String :=
  match c.ownerProgram with
  | none => "X "
  | some id => if color then background id ++ " " ++ plain ++ " " else toString (id % 10) ++ " "

/-- the number of glyphs in a full row -/
def Style.columns (style : Style) : Nat := max style.width 1

/-- the glyph of the `i`-th of `count` cells, with a line end after the last of its row -/
def place (style : Style) (count i : Nat) (c : Cell) : String :=
  if (i + 1) % style.columns = 0 ∨ i + 1 = count then glyph style.color c ++ "\n" else glyph style.color c

end OwnershipMap

/-- draws the cells in rows; every row ends with a line end, the last one included -/
def ownershipMap (style : OwnershipMap.Style) (cells : List Cell) : String :=
  let count := cells.length
  String.join (cells.zipIdx.map fun (c, i) => OwnershipMap.place style count i c)

end CoreWar
