/-
The built-in programs.

Their cells carry no owner; loading stamps one.
-/
import CoreWar.Cell

namespace CoreWar

namespace Roster

/-- copies itself one cell ahead, for ever: `MOV $0, $1` -/
def imp : List Cell := [{ op := .mov, a := ⟨0, some .direct⟩, b := ⟨1, some .direct⟩ }]

/-- drops a DAT on every fourth cell of the core: `ADD #4, $3`, `MOV $2, @2`, `JMP $-2`, `DAT #0, #0` -/
def dwarf : List Cell :=
  [{ op := .add, a := ⟨4, some .immediate⟩, b := ⟨3, some .direct⟩ },
   { op := .mov, a := ⟨2, some .direct⟩, b := ⟨2, some .bIndirect⟩ },
   Cell.jmp (-2),
   Cell.data]

def programs : List (String × List Cell) := [("imp", imp), ("dwarf", dwarf)]

def names : List String := programs.map (·.1)

def find? (name : String) : Option (List Cell) := programs.lookup name

end Roster

end CoreWar
