/-
Instructions: all the ways in which one can go.

`Core.effect` computes what an instruction does. `Execution` is the same as a relation, with one case for each way it
can go, each with what has to hold for it: who owns the cell, what its opcode is, which modes are there, what the
operands resolve to. Proofs about instructions are by cases on it, and do not open the computation.

- `resolve_eq_error_iff`: an operand is at fault iff it has no mode.
- `effect_execution`, `Execution.effect_eq`: whatever the cell, its effect is that of one of the cases, and of no other.
- `owner_of_effect`, `effect_store`, `effect_split`: what gets past the ownership check, what is stored, and when a
  process is added.
-/
import CoreWar.Effect

namespace CoreWar

namespace Core

/-- an operand is at fault iff it has no mode -/
theorem resolve_eq_error_iff {core : Core} {base : Int64} {c : Cell} {side : Side} {fault : Fault} :
    core.resolve base c side = .error fault ↔
      (c.operand side).mode = none ∧ fault = .missingMode (core.index base.toInt) side := by
  simp only [resolve]
  split <;> rename_i hmode <;> simp [hmode, eq_comm]

theorem resolve_modeless (core : Core) (base : Int64) {c : Cell} (side : Side) (h : (c.operand side).mode = none) :
    core.resolve base c side = .error (.missingMode (core.index base.toInt) side) :=
  resolve_eq_error_iff.2 ⟨h, rfl⟩

theorem resolve_eq_ok (core : Core) (base : Int64) {c : Cell} (side : Side) {mode : Mode}
    (h : (c.operand side).mode = some mode) : ∃ target, core.resolve base c side = .ok target := by
  cases hresolve : core.resolve base c side with
  | ok target => exact ⟨target, rfl⟩
  | error fault =>
    rw [resolve_eq_error_iff, h] at hresolve
    exact absurd hresolve.1 (by simp)

/-- the ways in which `w` can execute the cell `c` at `pointer` -/
inductive Execution (core : Core) (rules : Rules) (w : Warrior) (pointer : Int64) (c : Cell) :
    Except Fault Effect → Prop where
  | foreign (howner : c.ownerProgram ≠ some w.id) :
      Execution core rules w pointer c (.error (.ownershipMismatch (core.index pointer.toInt) c.ownerProgram w.id))
  | modelessA (howner : c.ownerProgram = some w.id)
      (hop : c.op = .mov ∨ c.op = .add ∨ c.op = .spl ∧ rules.splitProcesses = true) (hmode : c.a.mode = none) :
      Execution core rules w pointer c (.error (.missingMode (core.index pointer.toInt) .a))
  | modelessB (howner : c.ownerProgram = some w.id) (hop : c.op = .mov ∨ c.op = .add) {mode : Mode}
      (ha : c.a.mode = some mode) (hmode : c.b.mode = none) :
      Execution core rules w pointer c (.error (.missingMode (core.index pointer.toInt) .b))
  | dat (howner : c.ownerProgram = some w.id) (hop : c.op = .dat) : Execution core rules w pointer c (.ok .die)
  | jmp (howner : c.ownerProgram = some w.id) (hop : c.op = .jmp) :
      Execution core rules w pointer c (.ok (.jump (pointer + c.a.field)))
  | mov (howner : c.ownerProgram = some w.id) (hop : c.op = .mov) {source target : Target}
      (hsource : core.resolve pointer c .a = .ok source) (htarget : core.resolve pointer c .b = .ok target) :
      Execution core rules w pointer c (.ok (.store target.address (core.read source.address.toInt)))
  | add (howner : c.ownerProgram = some w.id) (hop : c.op = .add) {source target : Target}
      (hsource : core.resolve pointer c .a = .ok source) (htarget : core.resolve pointer c .b = .ok target) :
      Execution core rules w pointer c (.ok (.store target.address ((core.read target.address.toInt).setFields
        ((core.targetFields source).1 + (core.targetFields target).1,
          (core.targetFields source).2 + (core.targetFields target).2))))
  | spl (howner : c.ownerProgram = some w.id) (hop : c.op = .spl) (hon : rules.splitProcesses = true)
      {target : Target} (htarget : core.resolve pointer c .a = .ok target) (hroom : w.size < rules.maxProcesses) :
      Execution core rules w pointer c (.ok (.split target.address))
  | splFull (howner : c.ownerProgram = some w.id) (hop : c.op = .spl) (hon : rules.splitProcesses = true)
      {target : Target} (htarget : core.resolve pointer c .a = .ok target) (hfull : rules.maxProcesses ≤ w.size) :
      Execution core rules w pointer c (.ok .idle)
  | splOff (howner : c.ownerProgram = some w.id) (hop : c.op = .spl) (hoff : rules.splitProcesses = false) :
      Execution core rules w pointer c (.ok .idle)
  | nop (howner : c.ownerProgram = some w.id) (hop : c.op = .nop) : Execution core rules w pointer c (.ok .idle)

/-- operands A and B of an instruction that needs both: one is at fault, A before B, or both resolve -/
theorem resolve_both (core : Core) (pointer : Int64) (c : Cell) :
    (c.a.mode = none ∧ core.resolve pointer c .a = .error (.missingMode (core.index pointer.toInt) .a)) ∨
    (∃ source mode, core.resolve pointer c .a = .ok source ∧ c.a.mode = some mode ∧ c.b.mode = none ∧
      core.resolve pointer c .b = .error (.missingMode (core.index pointer.toInt) .b)) ∨
    ∃ source target, core.resolve pointer c .a = .ok source ∧ core.resolve pointer c .b = .ok target := by
  cases ha : c.a.mode with
  | none => exact Or.inl ⟨rfl, core.resolve_modeless pointer .a ha⟩
  | some mode =>
    obtain ⟨source, hsource⟩ := core.resolve_eq_ok pointer .a ha
    cases hb : c.b.mode with
    | none => exact Or.inr (Or.inl ⟨source, mode, hsource, rfl, rfl, core.resolve_modeless pointer .b hb⟩)
    | some mode' =>
      obtain ⟨target, htarget⟩ := core.resolve_eq_ok pointer .b hb
      exact Or.inr (Or.inr ⟨source, target, hsource, htarget⟩)

/-- whatever the cell, its effect is that of one of the cases -/
theorem effect_execution (core : Core) (rules : Rules) (w : Warrior) (pointer : Int64) :
    Execution core rules w pointer (core.read pointer.toInt) (core.effect rules w pointer) := by
  generalize hc : core.read pointer.toInt = c
  simp only [effect, hc]
  split
  · rename_i howner
    exact .foreign howner
  · rename_i howner
    rw [Decidable.not_not] at howner
    cases hop : c.op with
    | dat => exact .dat howner hop
    | jmp => exact .jmp howner hop
    | nop => exact .nop howner hop
    | mov =>
      rcases core.resolve_both pointer c with ⟨hmode, hfault⟩ | ⟨source, mode, hsource, ha, hmode, hfault⟩ |
        ⟨source, target, hsource, htarget⟩
      · simp only [hfault]
        exact .modelessA howner (Or.inl hop) hmode
      · simp only [hsource, hfault]
        exact .modelessB howner (Or.inl hop) ha hmode
      · simp only [hsource, htarget]
        exact .mov howner hop hsource htarget
    | add =>
      rcases core.resolve_both pointer c with ⟨hmode, hfault⟩ | ⟨source, mode, hsource, ha, hmode, hfault⟩ |
        ⟨source, target, hsource, htarget⟩
      · simp only [hfault]
        exact .modelessA howner (Or.inr (Or.inl hop)) hmode
      · simp only [hsource, hfault]
        exact .modelessB howner (Or.inr hop) ha hmode
      · simp only [hsource, htarget]
        exact .add howner hop hsource htarget
    | spl =>
      cases hsplit : rules.splitProcesses with
      | false => exact .splOff howner hop hsplit
      | true =>
        cases ha : c.a.mode with
        | none =>
          simp only [core.resolve_modeless pointer .a ha]
          exact .modelessA howner (Or.inr (Or.inr ⟨hop, hsplit⟩)) ha
        | some mode =>
          obtain ⟨target, htarget⟩ := core.resolve_eq_ok pointer .a ha
          simp only [htarget, if_true]
          by_cases hroom : w.size < rules.maxProcesses
          · simp only [if_pos hroom]
            exact .spl howner hop hsplit htarget hroom
          · simp only [if_neg hroom]
            exact .splFull howner hop hsplit htarget (Nat.le_of_not_lt hroom)

/-- an instruction goes in one way only, so each case gives the effect -/
theorem Execution.effect_eq {core : Core} {rules : Rules} {w : Warrior} {pointer : Int64}
    {result : Except Fault Effect} (h : Execution core rules w pointer (core.read pointer.toInt) result) :
    core.effect rules w pointer = result := by
  unfold effect
  cases h with
  | foreign howner => simp only [ne_eq, howner, not_false_eq_true, if_true]
  | modelessA howner hop hmode =>
    have hfault := core.resolve_modeless pointer .a hmode
    rcases hop with hop | hop | ⟨hop, hon⟩
    · simp [howner, hop, hfault, bind, Except.bind]
    · simp [howner, hop, hfault, bind, Except.bind]
    · simp [howner, hop, hon, hfault, bind, Except.bind]
  | modelessB howner hop ha hmode =>
    obtain ⟨source, hsource⟩ := core.resolve_eq_ok pointer .a ha
    have hfault := core.resolve_modeless pointer .b hmode
    rcases hop with hop | hop
    · simp [howner, hop, hsource, hfault, bind, Except.bind]
    · simp [howner, hop, hsource, hfault, bind, Except.bind]
  | dat howner hop => simp [howner, hop]
  | jmp howner hop => simp [howner, hop]
  | mov howner hop hsource htarget => simp [howner, hop, hsource, htarget, bind, Except.bind, pure, Except.pure]
  | add howner hop hsource htarget => simp [howner, hop, hsource, htarget, bind, Except.bind, pure, Except.pure]
  | spl howner hop hon htarget hroom => simp [howner, hop, hon, htarget, hroom, bind, Except.bind, pure, Except.pure]
  | splFull howner hop hon htarget hfull =>
    simp [howner, hop, hon, htarget, Nat.not_lt.2 hfull, bind, Except.bind, pure, Except.pure]
  | splOff howner hop hoff => simp [howner, hop, hoff]
  | nop howner hop => simp [howner, hop]

/-- what gets past the ownership check is the program's own -/
theorem owner_of_effect {core : Core} {rules : Rules} {w : Warrior} {pointer : Int64}
    (h : ∀ address owner, core.effect rules w pointer ≠ .error (.ownershipMismatch address owner w.id)) :
    (core.read pointer.toInt).ownerProgram = some w.id := by
  by_cases howner : (core.read pointer.toInt).ownerProgram = some w.id
  · exact howner
  · refine absurd ?_ (h (core.index pointer.toInt) (core.read pointer.toInt).ownerProgram)
    simp only [effect]
    exact if_pos howner

/-- a process is added only where the rules let a warrior split, and have room for one more -/
theorem effect_split {core : Core} {rules : Rules} {w : Warrior} {pointer start : Int64}
    (h : core.effect rules w pointer = .ok (.split start)) :
    rules.splitProcesses = true ∧ w.size < rules.maxProcesses := by
  have hexec := core.effect_execution rules w pointer
  rw [h] at hexec
  cases hexec with
  | spl _ _ hon _ hroom => exact ⟨hon, hroom⟩

/-- only MOV and ADD store: MOV a cell of the core, ADD the cell it replaces with other fields -/
theorem effect_store {core : Core} {rules : Rules} {w : Warrior} {pointer address : Int64} {c : Cell}
    (h : core.effect rules w pointer = .ok (.store address c)) :
    ((core.read pointer.toInt).op = .mov ∧ ∃ a, c = core.read a) ∨
      ((core.read pointer.toInt).op = .add ∧ ∃ fields, c = (core.read address.toInt).setFields fields) := by
  have hexec := core.effect_execution rules w pointer
  rw [h] at hexec
  cases hexec with
  | mov _ hop _ _ => exact Or.inl ⟨hop, _, rfl⟩
  | add _ hop _ _ => exact Or.inr ⟨hop, _, rfl⟩

end Core

end CoreWar
