/-
Order: sizes and places that never get out of hand.

A warrior is orderly if it has as many processes as the rules allow, and the turn in its rotation is the turn of one of
them. A battle is orderly if its warriors are, and if it still has the rules and the size of core it began with.

- `Warrior.Orderly.next_eq`: what handing out a process does to the row.
- `effect_orderly`: an instruction leaves its warrior orderly; it splits only where the rules leave room.
- `move_orderly`, `orderly_after`: every move keeps order, so every sequence of requests does.
- `start_lt_of_mem_loaded`: programs are loaded at places of the core.
-/
import CoreWar.Proofs.Conclusion
import CoreWar.Proofs.Instruction
import CoreWar.Proofs.Loadings

namespace CoreWar

/-- the number of processes is within the rules, and the turn is the turn of one of them -/
structure Warrior.Orderly (rules : Rules) (w : Warrior) : Prop where
  size_le : w.size ≤ max 1 rules.maxProcesses
  single : rules.splitProcesses = false → w.size = 1
  cursor_lt : w.rotation.cursor < w.size

namespace Warrior.Orderly

variable {rules : Rules} {w : Warrior}

theorem load (id : ProgramId) (code : List Cell) (start : Int64) : (Warrior.load id code start).Orderly rules :=
  ⟨Nat.le_max_left 1 _, fun _ => rfl, Nat.zero_lt_one⟩

/-- the process whose turn it is is handed out and moved one further, and the turn passes on -/
theorem next_eq (h : w.Orderly rules) :
    w.processes[w.rotation.cursor]? = some w.next.1 ∧
      w.next.2.processes = w.processes.set w.rotation.cursor (w.next.1 + 1) ∧
      w.next.2.rotation.last = w.rotation.cursor ∧ w.next.2.rotation.cursor = (w.rotation.cursor + 1) % w.size := by
  obtain ⟨hget, -, hlast, hcursor⟩ := Rotation.next_eq w.rotation h.cursor_lt
  exact ⟨hget, Rotation.processes_next h.cursor_lt, hlast, hcursor⟩

theorem next (h : w.Orderly rules) : w.next.2.Orderly rules := by
  have hsize : w.next.2.size = w.size := Rotation.size_next w.rotation
  obtain ⟨-, -, -, hcursor⟩ := h.next_eq
  refine ⟨by rw [hsize]; exact h.size_le, by rw [hsize]; exact h.single, ?_⟩
  rw [hsize, hcursor]
  exact Nat.mod_lt _ (Nat.zero_lt_of_lt h.cursor_lt)

theorem jump (h : w.Orderly rules) (target : Int64) : (w.jump target).Orderly rules :=
  ⟨h.size_le, h.single, h.cursor_lt⟩

theorem kill (h : w.Orderly rules) : w.kill.Orderly rules := ⟨h.size_le, h.single, h.cursor_lt⟩

theorem split (h : w.Orderly rules) (start : Int64) (hon : rules.splitProcesses = true)
    (hroom : w.size < rules.maxProcesses) : (w.split start).Orderly rules := by
  have hsize : (w.split start).size = w.size + 1 := rfl
  refine ⟨?_, by simp [hon], ?_⟩
  · rw [hsize]
    exact Nat.le_trans hroom (Nat.le_max_right 1 rules.maxProcesses)
  · rw [hsize]
    exact Nat.lt_succ_of_lt h.cursor_lt

end Warrior.Orderly

/-- an instruction leaves its warrior orderly -/
theorem effect_orderly {core : Core} {rules : Rules} {w : Warrior} {pointer : Int64} {effect : Effect}
    (h : w.Orderly rules) (heffect : core.effect rules w pointer = .ok effect) :
    (effect.onWarrior w).Orderly rules := by
  cases effect with
  | idle => exact h
  | die => exact h.kill
  | jump target => exact h.jump target
  | store address c => exact h
  | split start =>
    obtain ⟨hon, hroom⟩ := Core.effect_split heffect
    exact h.split start hon hroom

namespace Battle

variable {G : Type}

theorem executed_orderly {b : Battle G} {w : Warrior} (h : w.Orderly b.rules) : (b.executed w).Orderly b.rules := by
  unfold executed
  cases heffect : b.core.effect b.rules w.next.2 w.next.1 with
  | ok effect => exact effect_orderly h.next heffect
  | error fault => exact h.next.kill

/-- rules and size of the core are what they were, and the warriors are orderly -/
structure Orderly (rules : Rules) (b : Battle G) : Prop where
  rules_eq : b.rules = rules
  size_eq : b.core.size = rules.coreSize
  warriors : ∀ w ∈ b.warriors, w.Orderly rules

theorem orderly_ofRules {rules : Rules} {g : G} {b : Battle G} (h : ofRules rules g = .ok b) : Orderly rules b := by
  obtain ⟨-, rfl⟩ := ofRules_ok h
  exact ⟨rfl, by simp, by simp⟩

theorem move_orderly {rules : Rules} {b b' : Battle G} (hmove : Move b b') (h : Orderly rules b) :
    Orderly rules b' := by
  cases hmove with
  | noted generator log => exact ⟨h.rules_eq, h.size_eq, h.warriors⟩
  | placed id process code start hload hfree hstart =>
    refine ⟨h.rules_eq, by simpa [place] using h.size_eq, fun w hw => ?_⟩
    simp only [place, List.mem_append, List.mem_singleton] at hw
    rcases hw with hold | rfl
    · exact h.warriors w hold
    · exact .load id _ _
  | opened hloaded => exact ⟨h.rules_eq, h.size_eq, h.warriors⟩
  | turned hturn hopen hnext =>
    rename_i turn w i
    have hw : w ∈ b.warriors := List.mem_of_getElem? (nextLive?_eq_some hnext).1
    refine ⟨by simpa using h.rules_eq, by simpa [size_coreAfter] using h.size_eq, fun v hv => ?_⟩
    rw [conclude_warriors, takeTurn_warriors] at hv
    rcases List.mem_or_eq_of_mem_set hv with hold | rfl
    · exact h.warriors v hold
    · have hown : w.Orderly b.rules := h.rules_eq ▸ h.warriors w hw
      exact h.rules_eq ▸ executed_orderly hown
  | stalled hturn hopen hnext => exact ⟨h.rules_eq, h.size_eq, h.warriors⟩

theorem moves_orderly {rules : Rules} {b b' : Battle G} (hmoves : Moves b b') (h : Orderly rules b) :
    Orderly rules b' :=
  hmoves.preserves (P := Orderly rules) (fun _ _ => move_orderly) h

theorem orderly_after [WordSource G] {rules : Rules} {g : G} {b₀ : Battle G} (h₀ : ofRules rules g = .ok b₀)
    (requests : List Request) : Orderly rules (b₀.after requests) :=
  moves_orderly (replay_moves b₀ requests) (orderly_ofRules h₀)

/-- programs are loaded at places of the core -/
theorem start_lt_of_mem_loaded [WordSource G] {rules : Rules} {b : Battle G} (h : Orderly rules b)
    {requests : List Request} {l : Loading} (hl : l ∈ b.loaded requests) : l.start < rules.coreSize := by
  induction requests generalizing b with
  | nil => cases hl
  | cons request rest ih =>
    rcases List.mem_append.1 hl with hfirst | hrest
    · have hlt := (perform_of_loading (Option.mem_toList.1 hfirst)).2.2.1
      rwa [h.size_eq] at hlt
    · exact ih (moves_orderly (perform_moves b request) h) hrest

end Battle

end CoreWar
