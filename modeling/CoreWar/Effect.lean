/-
What executing one instruction does.

`Core.resolve` interprets an operand: every mode is read in this one place, and whoever needs the cell, its address or
its fields takes them from the target. `Core.effect` reads the core and decides on one effect; nothing is changed before
the effect is known, so an instruction that faults changes nothing. Addresses are 64-bit and wrap around; they are
reduced modulo the size only when the core is read or written.
-/
import CoreWar.Core
import CoreWar.Fault
import CoreWar.Rules
import CoreWar.Warrior

namespace CoreWar

/-- what an operand designates: an address and, if the operand is immediate, its value -/
structure Target where
  address : Int64
  immediate : Option Int64 := none
deriving DecidableEq, Repr

/-- resolves one operand of `c`, which executes at `base`; an indirect operand is a distance from the cell it points
through, not from `base` -/
def Core.resolve (core : Core) (base : Int64) (c : Cell) (side : Side) : Except Fault Target :=
  let operand := c.operand side
  let pointer := base + operand.field
  match operand.mode with
  | none => .error (.missingMode (core.index base.toInt) side)
  | some .direct => .ok { address := pointer }
  | some .immediate => .ok { address := base, immediate := some operand.field }
  | some .aIndirect => .ok { address := pointer + (core.read pointer.toInt).a.field }
  | some .bIndirect => .ok { address := pointer + (core.read pointer.toInt).b.field }

/-- the field pair of a target; an immediate value stands in the B field -/
def Core.targetFields (core : Core) (target : Target) : Int64 × Int64 :=
  match target.immediate with
  | some value => (0, value)
  | none => (core.read target.address.toInt).fields

/-- what an instruction does, apart from moving its process one further -/
inductive Effect where
  | idle
  | die
  | jump (target : Int64)
  | store (address : Int64) (cell : Cell)
  | split (start : Int64)
deriving DecidableEq, Repr

/-- the effect of the cell at `pointer` when `w` executes it: ownership is checked first, then the modes of the operands
the opcode needs, A before B, and for SPL the number of processes last -/
def Core.effect (core : Core) (rules : Rules) (w : Warrior) (pointer : Int64) : Except Fault Effect :=
  let c := core.read pointer.toInt
  if c.ownerProgram ≠ some w.id then
    .error (.ownershipMismatch (core.index pointer.toInt) c.ownerProgram w.id)
  else match c.op with
    | .dat => .ok .die
    | .jmp => .ok (.jump (pointer + c.a.field))
    | .add => do
      let source ← core.resolve pointer c .a
      let target ← core.resolve pointer c .b
      let (a₁, b₁) := core.targetFields source
      let (a₂, b₂) := core.targetFields target
      return .store target.address ((core.read target.address.toInt).setFields (a₁ + a₂, b₁ + b₂))
    | .mov => do
      let source ← core.resolve pointer c .a
      let target ← core.resolve pointer c .b
      return .store target.address (core.read source.address.toInt)
    | .spl =>
      if rules.splitProcesses then do
        let target ← core.resolve pointer c .a
        return if w.size < rules.maxProcesses then .split target.address else .idle
      else .ok .idle
    | .nop => .ok .idle

namespace Effect

/-- the core after an effect; only a store changes it -/
def onCore (core : Core) : Effect → Core
  | store address c => core.write address.toInt c
  | idle | die | jump _ | split _ => core

/-- the executing warrior after an effect -/
def onWarrior (w : Warrior) : Effect → Warrior
  | die => w.kill
  | jump target => w.jump target
  | split start => w.split start
  | idle | store _ _ => w

end Effect

end CoreWar
