/-
Causes of death: what a program dies of, and what is recorded of it.

A turn can kill in three ways. The cell is somebody else's or nobody's; it lacks a mode that its opcode needs; or it is
a DAT of the program's own. The first two are faults and are recorded, the third is how a program is meant to die and is
not. Several can hold at once: then the owner counts before the modes, and operand A before operand B. Nothing else
kills, whatever the other fields of the cell are and however it came to where it stands.

- `Cell.LacksMode`: which opcodes need which modes.
- `effect_eq_error_iff`, `effect_eq_die_iff`: when an instruction faults, with which fault, and when it dies without.
- `executed_alive_eq_false_iff`, `executed_dead_iff`: nothing else kills.
- `cause_law`: every turn that requests can bring about.
-/
import CoreWar.Proofs.Circle
import CoreWar.Proofs.Frame

namespace CoreWar

namespace Cell

/-- the opcode needs a mode that the cell does not have -/
def LacksMode (rules : Rules) (c : Cell) : Prop :=
  (c.op = .mov ∨ c.op = .add) ∧ (c.a.mode = none ∨ c.b.mode = none) ∨
    c.op = .spl ∧ rules.splitProcesses = true ∧ c.a.mode = none

/-- the operand that is at fault for its mode, A before B -/
def modelessSide (c : Cell) : Side := if c.a.mode = none then .a else .b

/-- the opcodes that take their operands as they are, if they have any, lack none -/
theorem not_lacksMode {rules : Rules} {c : Cell}
    (h : c.op = .jmp ∨ c.op = .nop ∨ c.op = .dat ∨ c.op = .spl ∧ rules.splitProcesses = false) :
    ¬ c.LacksMode rules := by
  rintro (⟨hop, -⟩ | ⟨hop, hon, -⟩)
  · rcases hop with hop | hop <;> simp [hop] at h
  · simp [hop, hon] at h

end Cell

namespace Core

variable {core : Core} {rules : Rules} {w : Warrior} {pointer : Int64}

/-- an instruction faults for its owner, or for a mode that it lacks, and for the owner first -/
theorem effect_eq_error_iff {fault : Fault} :
    core.effect rules w pointer = .error fault ↔
      ((core.read pointer.toInt).ownerProgram ≠ some w.id ∧
        fault = .ownershipMismatch (core.index pointer.toInt) (core.read pointer.toInt).ownerProgram w.id) ∨
      ((core.read pointer.toInt).ownerProgram = some w.id ∧ (core.read pointer.toInt).LacksMode rules ∧
        fault = .missingMode (core.index pointer.toInt) (core.read pointer.toInt).modelessSide) := by
  constructor
  · intro h
    have hexec := core.effect_execution rules w pointer
    rw [h] at hexec
    cases hexec with
    | foreign howner => exact Or.inl ⟨howner, rfl⟩
    | modelessA howner hop hmode =>
      refine Or.inr ⟨howner, ?_, by rw [Cell.modelessSide, if_pos hmode]⟩
      rcases hop with hop | hop | ⟨hop, hon⟩
      · exact Or.inl ⟨Or.inl hop, Or.inl hmode⟩
      · exact Or.inl ⟨Or.inr hop, Or.inl hmode⟩
      · exact Or.inr ⟨hop, hon, hmode⟩
    | modelessB howner hop ha hmode =>
      refine Or.inr ⟨howner, Or.inl ⟨hop, Or.inr hmode⟩, ?_⟩
      rw [Cell.modelessSide, if_neg (by simp [ha])]
  · rintro (⟨howner, rfl⟩ | ⟨howner, hlacks, rfl⟩)
    · exact Execution.effect_eq (.foreign howner)
    · rw [Cell.modelessSide]
      cases ha : (core.read pointer.toInt).a.mode with
      | none =>
        rw [if_pos rfl]
        rcases hlacks with ⟨hop | hop, -⟩ | ⟨hop, hon, -⟩
        · exact Execution.effect_eq (.modelessA howner (Or.inl hop) ha)
        · exact Execution.effect_eq (.modelessA howner (Or.inr (Or.inl hop)) ha)
        · exact Execution.effect_eq (.modelessA howner (Or.inr (Or.inr ⟨hop, hon⟩)) ha)
      | some mode =>
        rw [if_neg (by simp)]
        -- with the first mode there, it is the second that is needed and absent
        rcases hlacks with ⟨hop, hnone | hmode⟩ | ⟨-, -, hnone⟩
        · rw [ha] at hnone
          cases hnone
        · exact Execution.effect_eq (.modelessB howner hop ha hmode)
        · rw [ha] at hnone
          cases hnone

theorem exists_fault_iff :
    (∃ fault, core.effect rules w pointer = .error fault) ↔
      (core.read pointer.toInt).ownerProgram ≠ some w.id ∨ (core.read pointer.toInt).LacksMode rules := by
  constructor
  · rintro ⟨fault, hfault⟩
    rcases effect_eq_error_iff.1 hfault with ⟨hforeign, -⟩ | ⟨-, hlacks, -⟩
    · exact Or.inl hforeign
    · exact Or.inr hlacks
  · intro h
    by_cases howner : (core.read pointer.toInt).ownerProgram = some w.id
    · have hlacks := h.resolve_left fun hforeign => hforeign howner
      exact ⟨_, effect_eq_error_iff.2 (Or.inr ⟨howner, hlacks, rfl⟩)⟩
    · exact ⟨_, effect_eq_error_iff.2 (Or.inl ⟨howner, rfl⟩)⟩

/-- an instruction dies without a fault iff it is a DAT of its own -/
theorem effect_eq_die_iff :
    core.effect rules w pointer = .ok .die ↔
      (core.read pointer.toInt).ownerProgram = some w.id ∧ (core.read pointer.toInt).op = .dat := by
  constructor
  · intro h
    have hexec := core.effect_execution rules w pointer
    rw [h] at hexec
    cases hexec with
    | dat howner hop => exact ⟨howner, hop⟩
  · rintro ⟨howner, hop⟩
    exact Execution.effect_eq (.dat howner hop)

end Core

namespace Battle

variable {G : Type}

/-- only faults and DAT kill -/
theorem executed_alive_eq_false_iff {b : Battle G} {w : Warrior} (halive : w.alive = true) :
    (b.executed w).alive = false ↔
      (∃ fault, b.core.effect b.rules w.next.2 w.next.1 = .error fault) ∨
        b.core.effect b.rules w.next.2 w.next.1 = .ok .die := by
  have hnext : w.next.2.alive = true := halive
  unfold executed
  cases b.core.effect b.rules w.next.2 w.next.1 with
  | error fault => exact iff_of_true rfl (Or.inl ⟨fault, rfl⟩)
  | ok effect => cases effect <;> simp [Effect.onWarrior, Warrior.kill, Warrior.jump, Warrior.split, hnext]

/-- a live warrior dies of its turn iff the cell is not its own, a DAT, or lacks a mode -/
theorem executed_dead_iff {b : Battle G} {w : Warrior} (halive : w.alive = true) :
    (b.executed w).alive = false ↔
      (b.core.read w.next.1.toInt).ownerProgram ≠ some w.id ∨ (b.core.read w.next.1.toInt).op = .dat ∨
        (b.core.read w.next.1.toInt).LacksMode b.rules := by
  rw [executed_alive_eq_false_iff halive, Core.exists_fault_iff, Core.effect_eq_die_iff, Warrior.next_id]
  by_cases howner : (b.core.read w.next.1.toInt).ownerProgram = some w.id
  · simp only [howner, ne_eq, not_true_eq_false, false_or, true_and]
    exact Or.comm
  · exact iff_of_true (Or.inl (Or.inl howner)) (Or.inl howner)

/-! ## Main result -/

/-- **Causes of death.** Take any turn in any sequence of requests to a new battle. Let `w` be the warrior whose turn it
is, `pointer` that of the process whose turn it is, and `c` the cell there:
- `w` is dead afterwards iff `c` is not its own, is a DAT, or lacks a mode;
- a fault is recorded iff `c` is not its own or lacks a mode, at the place of `c` in the core and with the step just
  counted: that `c` has another owner, or none, whatever else is wrong with it; and otherwise the first operand without
  a mode;
- JMP, NOP and DAT of its own, and SPL where splitting is off, are no faults, whatever their modes. -/
theorem cause_law [WordSource G] {rules : Rules} {g : G} {b₀ : Battle G} (h₀ : ofRules rules g = .ok b₀)
    {requests : List Request} {t : Turn G} (ht : t ∈ b₀.turns requests) :
    let b := t.before
    ∃ w w', b.warriors[t.place]? = some w ∧ w.alive = true ∧ t.after.warriors[t.place]? = some w' ∧ w'.id = w.id ∧
      let pointer := w.next.1
      let c := b.core.read pointer.toInt
      let place := pointer.toInt % rules.coreSize
      w.processes[w.rotation.cursor]? = some pointer ∧
      (w'.alive = false ↔ c.ownerProgram ≠ some w.id ∨ c.op = .dat ∨ c.LacksMode rules) ∧
      (t.after.faults ≠ b.faults ↔ c.ownerProgram ≠ some w.id ∨ c.LacksMode rules) ∧
      (c.ownerProgram ≠ some w.id →
        t.after.faults = b.faults ++ [⟨b.steps + 1, w.id, .ownershipMismatch place c.ownerProgram w.id⟩]) ∧
      (c.ownerProgram = some w.id → c.LacksMode rules →
        t.after.faults =
          b.faults ++ [⟨b.steps + 1, w.id, .missingMode place (if c.a.mode = none then .a else .b)⟩]) ∧
      (c.ownerProgram = some w.id →
        c.op = .jmp ∨ c.op = .nop ∨ c.op = .dat ∨ c.op = .spl ∧ rules.splitProcesses = false →
        t.after.faults = b.faults) := by
  intro b
  obtain ⟨hmoves, htaken⟩ := mem_turns ht
  have horder : Orderly rules b := moves_orderly hmoves (orderly_ofRules h₀)
  have hpos : 0 < b.core.size := by
    rw [horder.size_eq]
    exact (ofRules_ok h₀).1
  obtain ⟨hafter, w, hw, halive, hwarriors, -, hfaults⟩ := step_of_turn htaken
  rw [← hafter] at hwarriors hfaults
  have hlt : t.place < b.warriors.length := (List.getElem?_eq_some_iff.1 hw).1
  have hown : w.Orderly rules := horder.warriors w (List.mem_of_getElem? hw)
  have hafter' : t.after.warriors[t.place]? = some (b.executed w) := by
    rw [hwarriors, List.getElem?_set_self hlt]
  have hplace : (b.core.index w.next.1.toInt : Int) = w.next.1.toInt % rules.coreSize := by
    rw [b.core.natCast_index hpos, horder.size_eq]
  have hfaulty : (∃ fault, b.core.effect b.rules w.next.2 w.next.1 = .error fault) ↔
      (b.core.read w.next.1.toInt).ownerProgram ≠ some w.id ∨ (b.core.read w.next.1.toInt).LacksMode rules := by
    rw [Core.exists_fault_iff, horder.rules_eq, Warrior.next_id]
  -- a fault is recorded, and where there is none, nothing is
  have hrecord : ∀ fault, b.core.effect b.rules w.next.2 w.next.1 = .error fault →
      t.after.faults = b.faults ++ [⟨b.steps + 1, w.id, fault⟩] := by
    intro fault hfault
    rw [hfaults]
    exact (takeTurn_fault hfault).2.2
  have hnone : (∀ fault, b.core.effect b.rules w.next.2 w.next.1 ≠ .error fault) → t.after.faults = b.faults := by
    intro hno
    rw [hfaults]
    cases heffect : b.core.effect b.rules w.next.2 w.next.1 with
    | ok effect => exact takeTurn_ok heffect
    | error fault => exact absurd heffect (hno fault)
  refine ⟨w, b.executed w, hw, halive, hafter', executed_id b w, hown.next_eq.1, ?_, ?_, ?_, ?_, ?_⟩
  · rw [executed_dead_iff halive, horder.rules_eq]
  · rw [← hfaulty]
    constructor
    · intro hchanged
      by_contra hno
      exact hchanged (hnone fun fault hfault => hno ⟨fault, hfault⟩)
    · rintro ⟨fault, hfault⟩ hsame
      rw [hrecord fault hfault, List.append_right_eq_self] at hsame
      cases hsame
  · intro hforeign
    have hfault := hrecord _ (Core.effect_eq_error_iff.2 (Or.inl ⟨hforeign, rfl⟩))
    rw [hplace] at hfault
    exact hfault
  · intro howner hlacks
    rw [← horder.rules_eq] at hlacks
    have hfault := hrecord _ (Core.effect_eq_error_iff.2 (Or.inr ⟨howner, hlacks, rfl⟩))
    rw [hplace] at hfault
    exact hfault
  · intro howner hop
    apply hnone
    intro fault hfault
    rw [← horder.rules_eq] at hop
    rcases Core.effect_eq_error_iff.1 hfault with ⟨hforeign, -⟩ | ⟨-, hlacks, -⟩
    · exact hforeign howner
    · exact Cell.not_lacksMode hop hlacks

/-- a MOV that has neither mode, a program that jumps to it, and one that jumps on the spot -/
def modelessMove : List Request :=
  [.loadAt 0 0 [{ op := .mov }] 3, .loadAt 1 0 [Cell.jmp (-2)] 5, .loadAt 2 0 [Cell.jmp 0] 7, .start]

/-- the MOV kills its own program for operand A, and then the other one, which it does not belong to -/
theorem cause_law_modeless_move :
    let b := copyToNowhere.after modelessMove
    let b' := copyToNowhere.after (modelessMove ++ [.run 3])
    ofRules copyToNowhere.rules copyToNowhere.generator = .ok copyToNowhere ∧
      (⟨0, b, b.step.2⟩ : Turn Random.Counter) ∈ copyToNowhere.turns (modelessMove ++ [.step]) ∧
      (⟨1, b', b'.step.2⟩ : Turn Random.Counter) ∈ copyToNowhere.turns (modelessMove ++ [.run 3, .step]) ∧
      b.step.2.faults = [⟨1, 0, .missingMode 3 .a⟩] ∧
      b'.step.2.faults = [⟨1, 0, .missingMode 3 .a⟩, ⟨4, 1, .ownershipMismatch 3 (some 0) 1⟩] ∧
      ∃ w ∈ b'.step.2.warriors[1]?, w.alive = false := by
  intro b b'
  have hnew : ofRules copyToNowhere.rules copyToNowhere.generator = .ok copyToNowhere := rfl
  have ht : (⟨0, b, b.step.2⟩ : Turn Random.Counter) ∈ copyToNowhere.turns (modelessMove ++ [.step]) := by
    decide +kernel
  have ht' : (⟨1, b', b'.step.2⟩ : Turn Random.Counter) ∈ copyToNowhere.turns (modelessMove ++ [.run 3, .step]) := by
    decide +kernel
  -- both turns come to the MOV at 3, and only the first is taken by its owner
  have hbefore : ∀ w ∈ b.warriors[0]?, w.id = 0 ∧ w.next.1 = 3 ∧
      b.core.read 3 = { op := .mov, owner := some ⟨0, 0⟩ } := by
    decide +kernel
  have hbefore' : ∀ w ∈ b'.warriors[1]?, w.id = 1 ∧ w.next.1 = 3 ∧
      b'.core.read 3 = { op := .mov, owner := some ⟨0, 0⟩ } := by
    decide +kernel
  refine ⟨hnew, ht, ht', ?_, ?_, ?_⟩
  · obtain ⟨w, -, hw, -, -, -, -, -, -, -, hmodeless, -⟩ := cause_law hnew ht
    obtain ⟨hid, hpointer, hcell⟩ := hbefore w hw
    rw [hpointer, show (3 : Int64).toInt = 3 from rfl, hcell, hid] at hmodeless
    have hfaults := hmodeless rfl (Or.inl ⟨Or.inl rfl, Or.inl rfl⟩)
    exact hfaults
  · obtain ⟨w, -, hw, -, -, -, -, -, -, hforeign, -, -⟩ := cause_law hnew ht'
    obtain ⟨hid, hpointer, hcell⟩ := hbefore' w hw
    rw [hpointer, show (3 : Int64).toInt = 3 from rfl, hcell, hid] at hforeign
    have hfaults := hforeign (by decide)
    exact hfaults
  · obtain ⟨w, w', hw, -, hw', -, -, hdies, -⟩ := cause_law hnew ht'
    obtain ⟨hid, hpointer, hcell⟩ := hbefore' w hw
    refine ⟨w', hw', hdies.2 (Or.inl ?_)⟩
    rw [hpointer, show (3 : Int64).toInt = 3 from rfl, hcell, hid]
    decide

end Battle

end CoreWar
