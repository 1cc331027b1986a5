/-
Operands: what MOV and ADD read and write.

An operand can be asked for three things: a pair of fields, a cell, and an address. Each of the three is given here by
its own interpretation of the modes (`operandFields`, `operandCell`, `operandAddress`); an indirect operand is followed
through the pointer cell, and then counted from there as a direct one. Instructions do not go that way: they resolve an
operand once, to a target, and take all they need from it. That comes to the same, whatever stands where: all that is
read is read in the core as it is before the instruction, so a cell can be source, destination, pointer and instruction
at once.

- `resolve_extracts`: the three interpretations, read off one target.
- `execute_core_of_store`: an instruction that stores changes the cell at its address, and no other.
- `operand_law`: the core after a MOV and after an ADD.
-/
import CoreWar.Proofs.Instruction
import CoreWar.Battle.Turns
import CoreWar.Random.Counter

namespace CoreWar

namespace Core

/-! ## Three interpretations of an operand -/

/-- the cell at a distance from an address -/
def ahead (core : Core) (base distance : Int64) : Cell := core.read (base + distance).toInt

/-- the fields that an operand stands for; an immediate one stands for itself, as a B field -/
def operandFields (core : Core) (base field : Int64) : Mode → Int64 × Int64
  | .direct => (core.ahead base field).fields
  | .immediate => (0, field)
  | .aIndirect => (core.ahead (base + field) (core.ahead base field).a.field).fields
  | .bIndirect => (core.ahead (base + field) (core.ahead base field).b.field).fields

/-- the cell that an operand stands for; an immediate one stands for the instruction it belongs to -/
def operandCell (core : Core) (base field : Int64) : Mode → Cell
  | .direct => core.ahead base field
  | .immediate => core.read base.toInt
  | .aIndirect => core.ahead (base + field) (core.ahead base field).a.field
  | .bIndirect => core.ahead (base + field) (core.ahead base field).b.field

/-- the address that an operand stands for -/
def operandAddress (core : Core) (base field : Int64) : Mode → Int64
  | .direct => base + field
  | .immediate => base
  | .aIndirect => base + field + (core.ahead base field).a.field
  | .bIndirect => base + field + (core.ahead base field).b.field

/-- **One target for all three.** An operand with a mode resolves to a target that has its address, and from which its
cell and its fields are taken. -/
theorem resolve_extracts (core : Core) (base : Int64) {c : Cell} (side : Side) {mode : Mode}
    (h : (c.operand side).mode = some mode) :
    ∃ target, core.resolve base c side = .ok target ∧
      target.address = core.operandAddress base (c.operand side).field mode ∧
      core.read target.address.toInt = core.operandCell base (c.operand side).field mode ∧
      core.targetFields target = core.operandFields base (c.operand side).field mode := by
  cases mode with
  | direct => exact ⟨{ address := base + (c.operand side).field }, by rw [resolve, h], rfl, rfl, rfl⟩
  | immediate =>
    exact ⟨{ address := base, immediate := some (c.operand side).field }, by rw [resolve, h], rfl, rfl, rfl⟩
  | aIndirect =>
    exact ⟨{ address := core.operandAddress base (c.operand side).field .aIndirect }, by rw [resolve, h]; rfl, rfl, rfl,
      rfl⟩
  | bIndirect =>
    exact ⟨{ address := core.operandAddress base (c.operand side).field .bIndirect }, by rw [resolve, h]; rfl, rfl, rfl,
      rfl⟩

end Core

namespace Battle

variable {G : Type}

/-! ## What is stored -/

/-- an instruction that stores changes the cell at its address, and no other -/
theorem execute_core_of_store {b : Battle G} (hpos : 0 < b.core.size) {w : Warrior} {address : Int64} {c : Cell}
    (h : b.core.effect b.rules w.next.2 w.next.1 = .ok (.store address c)) (place : Nat) :
    (b.execute w place).core.size = b.core.size ∧
      ∀ x : Int, (b.execute w place).core.read x =
        if b.core.index x = b.core.index address.toInt then c else b.core.read x := by
  have hcore : (b.execute w place).core = b.core.write address.toInt c := by
    simp only [execute, h]
    rfl
  rw [hcore]
  refine ⟨Core.size_write .., ?_⟩
  intro x
  rw [b.core.read_write hpos]
  by_cases hx : b.core.index x = b.core.index address.toInt
  · rw [if_pos hx, if_pos hx.symm]
  · rw [if_neg hx, if_neg (Ne.symm hx)]

/-- **Operands.** Let a warrior execute an instruction of its own that has both modes, in a core with cells, from
whatever pointer. Then, all read in the core before it:
- MOV puts the cell that operand A stands for, with its owner, at the address that operand B stands for;
- ADD gives the cell that operand B stands for, which is the one at that address, the sums of the fields that the two
  operands stand for, and leaves its opcode, its modes and its owner.
Every other cell is as it was. -/
theorem operand_law {b : Battle G} (hpos : 0 < b.core.size) {w : Warrior} {source target : Mode}
    (howner : (b.core.read w.next.1.toInt).ownerProgram = some w.id)
    (hsource : (b.core.read w.next.1.toInt).a.mode = some source)
    (htarget : (b.core.read w.next.1.toInt).b.mode = some target) (place : Nat) :
    let base := w.next.1
    let c := b.core.read base.toInt
    let address := b.core.operandAddress base c.b.field target
    let after := (b.execute w place).core
    (c.op = .mov → after.size = b.core.size ∧ ∀ x : Int, after.read x =
      if b.core.index x = b.core.index address.toInt then b.core.operandCell base c.a.field source
      else b.core.read x) ∧
    (c.op = .add → after.size = b.core.size ∧ ∀ x : Int, after.read x =
      if b.core.index x = b.core.index address.toInt then
        let old := b.core.operandCell base c.b.field target
        let (a₁, b₁) := b.core.operandFields base c.a.field source
        let (a₂, b₂) := b.core.operandFields base c.b.field target
        { old with a := { old.a with field := a₁ + a₂ }, b := { old.b with field := b₁ + b₂ } }
      else b.core.read x) ∧
    b.core.read address.toInt = b.core.operandCell base c.b.field target := by
  intro base c address after
  obtain ⟨source', hresolve, haddress, hcell, hfields⟩ := b.core.resolve_extracts base .a hsource
  obtain ⟨target', hresolve', haddress', hcell', hfields'⟩ := b.core.resolve_extracts base .b htarget
  have hown : c.ownerProgram = some w.next.2.id := howner
  have hwhere : target'.address = address := haddress'
  rw [hwhere] at hcell'
  refine ⟨?_, ?_, hcell'⟩
  · intro hop
    have hexec : Core.Execution b.core b.rules w.next.2 base c _ := .mov hown hop hresolve hresolve'
    have heffect := hexec.effect_eq
    rw [hcell, hwhere] at heffect
    exact execute_core_of_store hpos heffect place
  · intro hop
    have hexec : Core.Execution b.core b.rules w.next.2 base c _ := .add hown hop hresolve hresolve'
    have heffect := hexec.effect_eq
    rw [hfields, hfields', hwhere, hcell'] at heffect
    exact execute_core_of_store hpos heffect place

/-- an instruction with an immediate operand A and an operand B that points through the cell behind it -/
def pointing (op : Opcode) : Cell :=
  { op, a := ⟨4, some .immediate⟩, b := ⟨1, some .bIndirect⟩, owner := some ⟨0, 0⟩ }

/-- three cells: the instruction, a bomb of another program, which points to itself, and a free cell -/
def beforeBomb (op : Opcode) : Battle Random.Counter :=
  { rules := { coreSize := 3 }, core := ⟨#[pointing op, Cell.data.ownedBy 1 0, Cell.empty]⟩, generator := ⟨0, 1⟩ }

/-- the pointer cell is the destination: MOV puts the instruction itself there, ADD its value into the B field -/
theorem operand_law_pointer :
    let w (op : Opcode) : Warrior := .load 0 [pointing op] 3
    let after (op : Opcode) : Core := ((beforeBomb op).execute (w op) 0).core
    (∀ op, ((beforeBomb op).core.read (w op).next.1.toInt).ownerProgram = some (w op).next.2.id ∧
      ((beforeBomb op).core.read (w op).next.1.toInt).a.mode = some .immediate ∧
      ((beforeBomb op).core.read (w op).next.1.toInt).b.mode = some .bIndirect) ∧
    (after .mov).read 1 = pointing .mov ∧
    (after .add).read 1 = { Cell.data.ownedBy 1 0 with b := ⟨4, some .immediate⟩ } ∧
    (after .add).read 0 = pointing .add := by
  intro w after
  have hcell : ∀ op, (beforeBomb op).core.read (w op).next.1.toInt = pointing op := by
    intro op
    cases op <;> decide +kernel
  have howner : ∀ op, ((beforeBomb op).core.read (w op).next.1.toInt).ownerProgram = some (w op).id := by
    intro op
    rw [hcell]
    rfl
  have ha : ∀ op, ((beforeBomb op).core.read (w op).next.1.toInt).a.mode = some .immediate := by
    intro op
    rw [hcell]
    rfl
  have hb : ∀ op, ((beforeBomb op).core.read (w op).next.1.toInt).b.mode = some .bIndirect := by
    intro op
    rw [hcell]
    rfl
  have hpos : ∀ op, 0 < (beforeBomb op).core.size := fun op => Nat.succ_pos 2
  obtain ⟨hmov, -, -⟩ := operand_law (hpos .mov) (howner .mov) (ha .mov) (hb .mov) 0
  obtain ⟨-, hadd, -⟩ := operand_law (hpos .add) (howner .add) (ha .add) (hb .add) 0
  obtain ⟨-, hmoved⟩ := hmov (by rw [hcell]; rfl)
  obtain ⟨-, hadded⟩ := hadd (by rw [hcell]; rfl)
  refine ⟨fun op => ⟨howner op, ha op, hb op⟩, (hmoved 1).trans ?_, (hadded 1).trans ?_, (hadded 0).trans ?_⟩
  · decide +kernel
  · decide +kernel
  · decide +kernel

end Battle

end CoreWar
