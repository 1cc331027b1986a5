/-
Cells, the words a core is made of.

A cell holds an opcode, two operands and the tag of the program that claimed it. An operand is a 64-bit field and,
unless the cell was never given one, a mode that says how the field designates a cell. All operations here are on
single cells; addresses and cores come later.
-/

namespace CoreWar

/-- the number a program is loaded under -/
abbrev ProgramId := Nat

/-- the number of a process, as stamped on the cells loaded for it -/
abbrev ProcessId := Nat

inductive Opcode where
  | mov
  | dat
  | jmp
  | add
  | spl
  | nop
deriving DecidableEq, Repr

/-- how a field designates a cell: at that distance, the executing cell (the field being the value itself), or through
the A or B field of the cell at that distance -/
inductive Mode where
  | direct
  | immediate
  | aIndirect
  | bIndirect
deriving DecidableEq, Repr

/-- which of a cell's two operands -/
inductive Side where
  | a
  | b
deriving DecidableEq, Repr

structure Operand where
  field : Int64 := 0
  mode : Option Mode := none
deriving DecidableEq, Repr

/-- the tag on a claimed cell -/
structure Owner where
  program : ProgramId
  process : ProcessId
deriving DecidableEq, Repr

structure Cell where
  op : Opcode := .nop
  a : Operand := {}
  b : Operand := {}
  owner : Option Owner := none
deriving DecidableEq, Repr

namespace Cell

/-- the unclaimed cell: a NOP with zero fields, no modes and no owner -/
def empty : Cell := {}

instance : Inhabited Cell := ⟨empty⟩

/-- the jump `JMP n`; its B operand is unused and has no mode -/
def jmp (n : Int64) : Cell := { op := .jmp, a := ⟨n, some .direct⟩ }

/-- the bomb `DAT #0, #0` -/
def data : Cell := { op := .dat, a := ⟨0, some .immediate⟩, b := ⟨0, some .immediate⟩ }

/-- every component counts: a claimed NOP, or an unclaimed cell with a nonzero field, is not empty -/
def isEmpty (c : Cell) : Bool := decide (c = empty)

def ownerProgram (c : Cell) : Option ProgramId := c.owner.map (·.program)

def ownedBy (program : ProgramId) (process : ProcessId) (c : Cell) : Cell :=
  { c with owner := some ⟨program, process⟩ }

def operand (c : Cell) : Side → Operand
  | .a => c.a
  | .b => c.b

/-- the A and B fields -/
def fields (c : Cell) : Int64 × Int64 := (c.a.field, c.b.field)

/-- overwrites both fields; opcode, modes and owner stay -/
def setFields (fields : Int64 × Int64) (c : Cell) : Cell :=
  { c with a := { c.a with field := fields.1 }, b := { c.b with field := fields.2 } }

@[simp] theorem isEmpty_iff {c : Cell} : c.isEmpty = true ↔ c = empty := by
  simp [isEmpty]

@[simp] theorem fields_setFields (p : Int64 × Int64) (c : Cell) : (c.setFields p).fields = p := rfl

@[simp] theorem setFields_fields (c : Cell) : c.setFields c.fields = c := rfl

@[simp] theorem ownerProgram_setFields (p : Int64 × Int64) (c : Cell) :
    (c.setFields p).ownerProgram = c.ownerProgram := rfl

@[simp] theorem ownerProgram_ownedBy (program : ProgramId) (process : ProcessId) (c : Cell) :
    (c.ownedBy program process).ownerProgram = some program := rfl

/-- a stamped cell is never free space -/
@[simp] theorem isEmpty_ownedBy (program : ProgramId) (process : ProcessId) (c : Cell) :
    (c.ownedBy program process).isEmpty = false := by
  simp [isEmpty, ownedBy, empty]

end Cell

end CoreWar
