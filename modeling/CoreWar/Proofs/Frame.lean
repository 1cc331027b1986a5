/-
Frame: what a turn leaves alone.

A process is handed out and moved on before anybody looks at the cell it points to, and the operand at fault can be the
second one. All the same a turn touches its own warrior only, and there the process handed out and at most one new one;
of the core it touches one cell at most; and a fault leaves no trace but the record, the death and the move.

- `mem_turns`, `steps_lt_of_mem_turns`: every turn taken is one from a battle that moves lead to, before the last step
  is counted.
- `executed_processes`: the row of processes after an instruction.
- `frame_law`: the whole of what a turn changes, in every battle that requests can bring about.
-/
import CoreWar.Proofs.Loadings
import CoreWar.Proofs.Orderly
import CoreWar.Proofs.TurnOrder

namespace CoreWar

/-- sending the process just handed out elsewhere replaces the pointer it was moved on to -/
theorem Warrior.Orderly.processes_jump {rules : Rules} {w : Warrior} (h : w.Orderly rules) (target : Int64) :
    (w.next.2.jump target).processes = w.processes.set w.rotation.cursor target := by
  obtain ⟨-, hrow, hlast, -⟩ := h.next_eq
  have hjump : (w.next.2.jump target).processes = w.next.2.processes.set w.next.2.rotation.last target :=
    Rotation.processes_jump target w.next.2.rotation
  rw [hjump, hrow, hlast, List.set_set]

/-- a process added comes in behind the one just handed out -/
theorem Warrior.Orderly.processes_split {rules : Rules} {w : Warrior} (h : w.Orderly rules) (start : Int64) :
    (w.next.2.split start).processes =
      (w.processes.set w.rotation.cursor (w.next.1 + 1)).insertIdx (w.rotation.cursor + 1) start := by
  obtain ⟨-, hrow, hlast, -⟩ := h.next_eq
  have hsplit : (w.next.2.split start).processes = w.next.2.processes.insertIdx (w.next.2.rotation.last + 1) start :=
    Rotation.processes_split start w.next.2.rotation
  rw [hsplit, hrow, hlast]

namespace Battle

variable {G : Type}

/-! ## Turns taken -/

theorem mem_nextTurn {b : Battle G} {t : Turn G} (h : t ∈ b.nextTurn?.toList) :
    Moves b t.before ∧ t.before.nextTurn? = some t := by
  have hturn : b.nextTurn? = some t := by simpa using h
  obtain ⟨turn, w, -, -, -, hbefore, -⟩ := nextTurn?_eq_some hturn
  rw [hbefore]
  exact ⟨Moves.refl b, hturn⟩

theorem mem_runTurns {b : Battle G} {budget : Nat} {t : Turn G} (h : t ∈ b.runTurns budget) :
    Moves b t.before ∧ t.before.nextTurn? = some t := by
  induction budget generalizing b with
  | zero => simp [runTurns] at h
  | succ budget ih =>
    simp only [runTurns] at h
    split at h
    · rename_i next hstep
      rcases List.mem_append.1 h with ht | ht
      · exact mem_nextTurn ht
      · obtain ⟨hmoves, hturn⟩ := ih ht
        have hnext : next = b.step.2 := by rw [hstep]
        exact ⟨(step_moves b).trans (hnext ▸ hmoves), hturn⟩
    · exact mem_nextTurn h

/-- every turn taken is one from a battle that moves lead to -/
theorem mem_turns [WordSource G] {b : Battle G} {requests : List Request} {t : Turn G} (h : t ∈ b.turns requests) :
    Moves b t.before ∧ t.before.nextTurn? = some t := by
  induction requests generalizing b with
  | nil => simp [turns] at h
  | cons request rest ih =>
    rcases List.mem_append.1 h with ht | ht
    · cases request with
      | step => exact mem_nextTurn ht
      | run budget => exact mem_runTurns ht
      | load id process code => cases ht
      | loadAt id process code address => cases ht
      | start => cases ht
    · obtain ⟨hmoves, hturn⟩ := ih ht
      exact ⟨(perform_moves b request).trans hmoves, hturn⟩

theorem steps_le_of_moves {b b' : Battle G} (h : Moves b b') : b.steps ≤ b'.steps := by
  refine h.preserves (P := fun b' => b.steps ≤ b'.steps) ?_ (Nat.le_refl _)
  intro a a' hmove hle
  cases hmove with
  | noted generator log => exact hle
  | placed id process code start hload hfree hstart => exact hle
  | opened hloaded => exact hle
  | turned hturn hopen hnext =>
    rw [conclude_steps, takeTurn_steps]
    exact Nat.le_succ_of_le hle
  | stalled hturn hopen hnext => exact hle

/-- a turn is taken before the last step is counted -/
theorem steps_lt_of_mem_turns [WordSource G] {b : Battle G} {requests : List Request} {t : Turn G}
    (h : t ∈ b.turns requests) : t.before.steps < (b.after requests).steps := by
  induction requests generalizing b with
  | nil => simp [turns] at h
  | cons request rest ih =>
    rcases List.mem_append.1 h with ht | ht
    · have hplay : request ≠ .start := by
        rintro rfl
        simp [requestTurns] at ht
      obtain ⟨ts, ts', hsplit⟩ := List.append_of_mem ht
      have hcourse := perform_course b hplay
      have hsteps := hcourse.steps
      rw [hsplit] at hcourse hsteps
      have hbefore := hcourse.cut.1.steps
      have hlater := steps_le_of_moves (replay_moves (b.perform request).2 rest)
      rw [List.length_append, List.length_cons] at hsteps
      rw [after_cons]
      omega
    · exact ih ht

/-! ## What a turn changes -/

/-- an instruction changes the pointer of the process handed out, and adds at most one process, behind it -/
theorem executed_processes {b : Battle G} {w : Warrior} (h : w.Orderly b.rules) :
    ∃ pointer, (b.executed w).processes = w.processes.set w.rotation.cursor pointer ∨
      ∃ start, (b.executed w).processes =
        (w.processes.set w.rotation.cursor pointer).insertIdx (w.rotation.cursor + 1) start := by
  have hnext := h.next_eq.2.1
  unfold executed
  cases b.core.effect b.rules w.next.2 w.next.1 with
  | error fault => exact ⟨_, Or.inl hnext⟩
  | ok effect =>
    cases effect with
    | idle => exact ⟨_, Or.inl hnext⟩
    | die => exact ⟨_, Or.inl hnext⟩
    | jump target => exact ⟨target, Or.inl (h.processes_jump target)⟩
    | store address c => exact ⟨_, Or.inl hnext⟩
    | split start => exact ⟨_, Or.inr ⟨start, h.processes_split start⟩⟩

/-- a fault leaves the core, and of the warrior only the process moved on and the death -/
theorem takeTurn_fault {b : Battle G} {w : Warrior} {i : Nat} {fault : Fault}
    (h : b.core.effect b.rules w.next.2 w.next.1 = .error fault) :
    b.coreAfter w = b.core ∧ b.executed w = w.next.2.kill ∧
      (b.takeTurn w i).faults = b.faults ++ [⟨b.steps + 1, w.id, fault⟩] := by
  simp [coreAfter, executed, takeTurn, execute, h]

/-- without a fault, none is recorded -/
theorem takeTurn_ok {b : Battle G} {w : Warrior} {i : Nat} {effect : Effect}
    (h : b.core.effect b.rules w.next.2 w.next.1 = .ok effect) : (b.takeTurn w i).faults = b.faults := by
  simp [takeTurn, execute, h]

/-- a write changes the cell at its address -/
theorem getElem?_write (core : Core) (a : Int) (c : Cell) (m : Nat) :
    (core.write a c).cells[m]? = if core.index a = m then core.cells[m]?.map fun _ => c else core.cells[m]? := by
  simp only [Core.write, Array.getElem?_setIfInBounds]
  split
  · rename_i heq
    subst heq
    split
    · rename_i hlt
      simp [hlt]
    · rename_i hlt
      simp [hlt]
  · rfl

/-- one cell of the core can change, by MOV or ADD, and by ADD only in its fields -/
theorem coreAfter_frame (b : Battle G) (w : Warrior) :
    (∃ j, ∀ m : Nat, m ≠ j → (b.coreAfter w).cells[m]? = b.core.cells[m]?) ∧
      (b.coreAfter w ≠ b.core → (b.core.read w.next.1.toInt).op = .mov ∨ (b.core.read w.next.1.toInt).op = .add) ∧
      ((b.core.read w.next.1.toInt).op = .add → ∀ (m : Nat) (c : Cell), b.core.cells[m]? = some c →
        ∃ fields, (b.coreAfter w).cells[m]? = some (c.setFields fields)) := by
  rcases coreAfter_cases b w with hsame | ⟨address, d, heffect, hstore⟩
  · rw [hsame]
    exact ⟨⟨0, fun _ _ => rfl⟩, fun hne => absurd rfl hne, fun _ m c hc => ⟨c.fields, by simpa using hc⟩⟩
  · rw [hstore]
    refine ⟨⟨b.core.index address.toInt, ?_⟩, ?_, ?_⟩
    · intro m hm
      rw [getElem?_write, if_neg (Ne.symm hm)]
    · intro _
      rcases Core.effect_store heffect with ⟨hop, -⟩ | ⟨hop, -⟩
      · exact Or.inl hop
      · exact Or.inr hop
    · intro hadd m c hc
      rcases Core.effect_store heffect with ⟨hop, -⟩ | ⟨-, fields, rfl⟩
      · rw [hadd] at hop
        cases hop
      · by_cases hm : b.core.index address.toInt = m
        · have hread : b.core.read address.toInt = c := by
            rw [Core.read, hm, Array.getD_eq_getD_getElem?, hc, Option.getD_some]
          exact ⟨fields, by rw [getElem?_write, if_pos hm, hc, hread, Option.map_some]⟩
        · exact ⟨c.fields, by rw [getElem?_write, if_neg hm, hc, Cell.setFields_fields]⟩

/-- **Frame.** Take any turn in any sequence of requests to a new battle, and let `w` be the warrior whose turn it is:
- all other warriors are as before, and `w` keeps its id and its code;
- of its processes, the one handed out gets another pointer, and at most one is added, directly behind it;
- at most one cell of the core changes, and only if the instruction is MOV or ADD, and by ADD only in its fields;
- a fault, whatever the instruction and the operand, leaves the core and adds no process: it adds one record, `w` is
  dead, and the process handed out is one further; without a fault no record is added. -/
theorem frame_law [WordSource G] {rules : Rules} {g : G} {b₀ : Battle G} (h₀ : ofRules rules g = .ok b₀)
    {requests : List Request} {t : Turn G} (ht : t ∈ b₀.turns requests) :
    let b := t.before
    ∃ w w', b.warriors[t.place]? = some w ∧ w.alive = true ∧ t.after.warriors[t.place]? = some w' ∧
      let k := w.rotation.cursor
      let pointer := w.next.1
      let op := (b.core.read pointer.toInt).op
      w.processes[k]? = some pointer ∧
      (t.after.warriors.length = b.warriors.length ∧
        ∀ j, j ≠ t.place → t.after.warriors[j]? = b.warriors[j]?) ∧
      (w'.id = w.id ∧ w'.code = w.code) ∧
      (∃ moved, w'.processes = w.processes.set k moved ∨
        ∃ start, w'.processes = (w.processes.set k moved).insertIdx (k + 1) start) ∧
      (t.after.core.size = b.core.size ∧ (∃ j, ∀ m : Nat, m ≠ j → t.after.core.cells[m]? = b.core.cells[m]?) ∧
        (t.after.core ≠ b.core → op = .mov ∨ op = .add) ∧
        (op = .add → ∀ (m : Nat) (c : Cell), b.core.cells[m]? = some c →
          ∃ fields, t.after.core.cells[m]? = some (c.setFields fields))) ∧
      (∀ effect, b.core.effect b.rules w.next.2 pointer = .ok effect → t.after.faults = b.faults) ∧
      ∀ fault, b.core.effect b.rules w.next.2 pointer = .error fault →
        t.after.core = b.core ∧ w'.processes = w.processes.set k (pointer + 1) ∧ w'.alive = false ∧
          t.after.faults = b.faults ++ [⟨b.steps + 1, w.id, fault⟩] := by
  intro b
  obtain ⟨hmoves, htaken⟩ := mem_turns ht
  have horder : Orderly rules b := moves_orderly hmoves (orderly_ofRules h₀)
  obtain ⟨turn, w, -, -, hnext, -, hstep, hafter⟩ := nextTurn?_eq_some htaken
  obtain ⟨hw, halive, -⟩ := nextLive?_eq_some hnext
  have hlt : t.place < b.warriors.length := (List.getElem?_eq_some_iff.1 hw).1
  have hown : w.Orderly b.rules := horder.rules_eq ▸ horder.warriors w (List.mem_of_getElem? hw)
  -- the battle after the turn, field by field
  have hwarriors : t.after.warriors = b.warriors.set t.place (b.executed w) := by
    rw [hafter, hstep, conclude_warriors, takeTurn_warriors]
  have hcore : t.after.core = b.coreAfter w := by rw [hafter, hstep, conclude_core, takeTurn_core]
  have hfaults : t.after.faults = (b.takeTurn w t.place).faults := by rw [hafter, hstep, conclude_faults]
  have hstamp : (b.executed w).stamp = w.stamp := executed_stamp b w
  rw [hwarriors, hcore, hfaults]
  refine ⟨w, b.executed w, hw, halive, List.getElem?_set_self hlt, hown.next_eq.1,
    ⟨List.length_set, fun j hj => List.getElem?_set_ne (Ne.symm hj)⟩,
    ⟨congrArg Prod.fst hstamp, congrArg Prod.snd hstamp⟩, executed_processes hown,
    ⟨size_coreAfter b w, coreAfter_frame b w⟩, fun effect hok => takeTurn_ok hok, ?_⟩
  intro fault hfault
  obtain ⟨hsame, hkill, hrecord⟩ := takeTurn_fault (i := t.place) hfault
  rw [hkill]
  exact ⟨hsame, hown.next_eq.2.1, rfl, hrecord⟩

/-- a copy that does not say where to, between two programs that jump on the spot -/
def copyToNowhere : Battle Random.Counter :=
  { rules := { coreSize := 10 }, core := .blank 10, generator := ⟨0, 1⟩ }

/-- the copy is at fault for its second operand, after its process was moved on: it dies, and the core stays -/
theorem frame_law_copy :
    let requests : List Request :=
      [.loadAt 0 0 [{ op := .mov, a := ⟨0, some .direct⟩, b := ⟨1, none⟩ }] 3, .loadAt 1 0 [Cell.jmp 0] 5,
        .loadAt 2 0 [Cell.jmp 0] 7, .start]
    let b := copyToNowhere.after requests
    let t : Turn Random.Counter := ⟨0, b, b.step.2⟩
    ofRules copyToNowhere.rules copyToNowhere.generator = .ok copyToNowhere ∧
      t ∈ copyToNowhere.turns (requests ++ [.step]) ∧
      (∀ w ∈ b.warriors[0]?, b.core.effect b.rules w.next.2 w.next.1 = .error (.missingMode 3 .b)) ∧
      b.step.2.core = b.core ∧ b.step.2.faults = [⟨1, 0, .missingMode 3 .b⟩] ∧
      ∃ w, b.step.2.warriors[0]? = some w ∧ w.alive = false ∧ w.processes = [4] := by
  intro requests b t
  have hnew : ofRules copyToNowhere.rules copyToNowhere.generator = .ok copyToNowhere := rfl
  have ht : t ∈ copyToNowhere.turns (requests ++ [.step]) := by decide +kernel
  have hfault : ∀ w ∈ b.warriors[0]?, b.core.effect b.rules w.next.2 w.next.1 = .error (.missingMode 3 .b) := by
    decide +kernel
  obtain ⟨w, w', hw, -, hw', -, -, -, -, -, -, hcontained⟩ := frame_law hnew ht
  obtain ⟨hcore, hprocesses, hdead, hfaults⟩ := hcontained _ (hfault w hw)
  have hbefore : ∀ w ∈ b.warriors[0]?, w.processes.set w.rotation.cursor (w.next.1 + 1) = [4] ∧ w.id = 0 := by
    decide +kernel
  refine ⟨hnew, ht, hfault, hcore, ?_, w', hw', hdead, hprocesses.trans (hbefore w hw).1⟩
  rw [(hbefore w hw).2] at hfaults
  exact hfaults

end Battle

end CoreWar
