/-
Accounts: what the log tells is what became of the battle.

Events are reported deep inside a loading, an instruction and a step, some of them on one path only of several that end
alike: a split at the cap of processes is none, a fault is not the death by DAT, and a step that found nobody alive
would conclude the game without a word. Read as a whole, the log still has the loadings, the deaths, the splits, the
faults and the end of the game, each once: who reads it knows how many warriors there are, who is dead, how many
processes each has, and how the game ended.

- `Event.loading?`, `Event.death?`, `Event.split?`, `Event.fault?`, `Event.finish?`: what an event tells, if it does.
- `told_turned`: what a turn adds to the log; `turnEvents_deaths` and its companions read it.
- `Accounts`: deaths, splits and faults, in the log and in the battle; kept by every step, since a turn tells what
  becomes of the warrior whose turn it is (`Told.executed`) and nothing of the others (`Told.other`).
- `Finished`: an end is reported when the game is concluded, by a turn (`told_finish_after`).
- `account_law`: the whole log, after every sequence of requests to a new battle.
-/
import CoreWar.Proofs.Loadings
import CoreWar.Proofs.Provenance
import CoreWar.Proofs.Frame
import CoreWar.Random.Counter

namespace CoreWar

/-! ## What events tell -/

namespace Event

/-- the program that was loaded, its start and its length -/
def loading? : Event → Option (ProgramId × Nat × Nat)
  | loaded program start length => some (program, start, length)
  | executedDat .. | split .. | faulted .. | notStarted | won .. | drawn .. => none

/-- the program that died -/
def death? : Event → Option ProgramId
  | executedDat program _ | faulted program _ _ => some program
  | loaded .. | split .. | notStarted | won .. | drawn .. => none

/-- the program that got one more process -/
def split? : Event → Option ProgramId
  | split program _ => some program
  | loaded .. | executedDat .. | faulted .. | notStarted | won .. | drawn .. => none

/-- the fault that was recorded -/
def fault? : Event → Option FaultRecord
  | faulted program step fault => some ⟨step, program, fault⟩
  | loaded .. | executedDat .. | split .. | notStarted | won .. | drawn .. => none

/-- how the game ended, and after how many steps -/
def finish? : Event → Option (Outcome × Nat)
  | won winner steps => some (.winner winner, steps)
  | drawn steps => some (.draw, steps)
  | loaded .. | executedDat .. | split .. | faulted .. | notStarted => none

end Event

/-- what the log tells of a program that was loaded -/
def Loading.told (l : Loading) : ProgramId × Nat × Nat := (l.id, l.start, l.code.length)

namespace Battle

variable {G : Type}

/-- all that the log tells, in order, of what `f` reads in an event -/
def told {α : Type} (b : Battle G) (f : Event → Option α) : List α := b.log.toList.filterMap f

/-- what the instruction of `w` is reported as -/
def turnEvents (b : Battle G) (w : Warrior) : List Event :=
  match b.core.effect b.rules w.next.2 w.next.1 with
  | .ok effect => (effectEvent? w.id w.next.1 effect).toList
  | .error fault => [.faulted w.id (b.steps + 1) fault]

/-- what concluding the game is reported as -/
def finishEvents (b : Battle G) : List Event :=
  match b.outcome with
  | .running => []
  | .winner id => [.won id b.steps]
  | .draw => [.drawn b.steps]

section

variable {α : Type} (f : Event → Option α) (b : Battle G)

theorem told_emit (event : Event) : (b.emit event).told f = b.told f ++ (f event).toList := by
  cases h : f event <;> simp [told, emit, h]

theorem told_place (id : ProgramId) (process : ProcessId) (code : List Cell) (start : Nat) :
    (b.place id process code start).told f = b.told f ++ (f (.loaded id start code.length)).toList := by
  cases h : f (.loaded id start code.length) <;> simp [told, place, h]

theorem told_takeTurn (w : Warrior) (i : Nat) :
    (b.takeTurn w i).told f = b.told f ++ (b.turnEvents w).filterMap f := by
  simp only [told, takeTurn, execute, turnEvents]
  cases b.core.effect b.rules w.next.2 w.next.1 with
  | ok effect => simp
  | error fault => simp

theorem told_conclude : b.conclude.2.told f = b.told f ++ b.finishEvents.filterMap f := by
  simp only [told, conclude, finishEvents]
  cases b.outcome <;> simp [emit]

/-- a turn adds its instruction to the log, and the end of the game if it is over -/
theorem told_turned (w : Warrior) (i : Nat) :
    (b.takeTurn w i).conclude.2.told f =
      b.told f ++ (b.turnEvents w).filterMap f ++ (b.takeTurn w i).finishEvents.filterMap f := by
  rw [told_conclude, told_takeTurn]

variable {f}

theorem told_emit_of_none {event : Event} (h : f event = none) : (b.emit event).told f = b.told f := by
  rw [told_emit, h, Option.toList_none, List.append_nil]

theorem told_place_of_none {id : ProgramId} (process : ProcessId) {code : List Cell} {start : Nat}
    (h : f (.loaded id start code.length) = none) : (b.place id process code start).told f = b.told f := by
  rw [told_place, h, Option.toList_none, List.append_nil]

/-- the end of the game tells nothing else -/
theorem told_turned_of_none (hwon : ∀ id steps, f (.won id steps) = none) (hdrawn : ∀ steps, f (.drawn steps) = none)
    (w : Warrior) (i : Nat) :
    (b.takeTurn w i).conclude.2.told f = b.told f ++ (b.turnEvents w).filterMap f := by
  have hfinish : (b.takeTurn w i).finishEvents.filterMap f = [] := by
    unfold finishEvents
    cases (b.takeTurn w i).outcome <;> simp [hwon, hdrawn]
  rw [told_turned, hfinish, List.append_nil]

end

/-! ## What a turn tells -/

section

variable {b : Battle G} {w : Warrior}

theorem turnEvents_loadings : (b.turnEvents w).filterMap Event.loading? = [] := by
  unfold turnEvents
  cases b.core.effect b.rules w.next.2 w.next.1 with
  | error fault => rfl
  | ok effect => cases effect <;> rfl

theorem turnEvents_finishes : (b.turnEvents w).filterMap Event.finish? = [] := by
  unfold turnEvents
  cases b.core.effect b.rules w.next.2 w.next.1 with
  | error fault => rfl
  | ok effect => cases effect <;> rfl

/-- a death is told iff the warrior, alive until then, is dead after its turn -/
theorem turnEvents_deaths (halive : w.alive = true) :
    (b.turnEvents w).filterMap Event.death? = if (b.executed w).alive then [] else [w.id] := by
  have hnext : w.next.2.alive = true := halive
  unfold turnEvents executed
  cases b.core.effect b.rules w.next.2 w.next.1 with
  | error fault => rfl
  | ok effect =>
    cases effect with
    | die => rfl
    | idle => exact (if_pos hnext).symm
    | jump target => exact (if_pos hnext).symm
    | store address c => exact (if_pos hnext).symm
    | split start => exact (if_pos hnext).symm

/-- a split is told iff the warrior has one process more -/
theorem turnEvents_splits :
    ∃ n, (b.turnEvents w).filterMap Event.split? = List.replicate n w.id ∧ (b.executed w).size = w.size + n := by
  have hnext : w.next.2.size = w.size := Rotation.size_next w.rotation
  unfold turnEvents executed
  cases b.core.effect b.rules w.next.2 w.next.1 with
  | error fault => exact ⟨0, rfl, hnext⟩
  | ok effect =>
    cases effect with
    | die => exact ⟨0, rfl, hnext⟩
    | idle => exact ⟨0, rfl, hnext⟩
    | jump target => exact ⟨0, rfl, hnext⟩
    | store address c => exact ⟨0, rfl, hnext⟩
    | split start => exact ⟨1, rfl, congrArg (· + 1) hnext⟩

theorem turnEvents_faults (i : Nat) :
    (b.takeTurn w i).faults = b.faults ++ (b.turnEvents w).filterMap Event.fault? := by
  unfold turnEvents
  cases heffect : b.core.effect b.rules w.next.2 w.next.1 with
  | error fault => exact (takeTurn_fault heffect).2.2
  | ok effect =>
    rw [takeTurn_ok heffect]
    cases effect <;> exact (List.append_nil _).symm

end

/-! ## Deaths, splits and faults -/

/-- the log has the warrior's death, if it is dead, and its splits -/
structure Told (b : Battle G) (w : Warrior) : Prop where
  deaths : (b.told Event.death?).count w.id = if w.alive then 0 else 1
  splits : (b.told Event.split?).count w.id + 1 = w.size

structure Accounts (b : Battle G) : Prop where
  warriors : ∀ w ∈ b.warriors, b.Told w
  /-- nothing is told of programs that are not loaded -/
  strangers : ∀ id ∈ b.told Event.death? ++ b.told Event.split?, id ∈ b.warriors.map (·.id)
  faults : b.told Event.fault? = b.faults

theorem Accounts.congr {b b' : Battle G} (h : Accounts b) (hwarriors : b'.warriors = b.warriors)
    (hfaults : b'.faults = b.faults) (hdeath : b'.told Event.death? = b.told Event.death?)
    (hsplit : b'.told Event.split? = b.told Event.split?) (hfault : b'.told Event.fault? = b.told Event.fault?) :
    Accounts b' := by
  refine ⟨fun w hw => ?_, ?_, ?_⟩
  · obtain ⟨hdeaths, hsplits⟩ := h.warriors w (hwarriors ▸ hw)
    exact ⟨by rw [hdeath, hdeaths], by rw [hsplit, hsplits]⟩
  · rw [hdeath, hsplit, hwarriors]
    exact h.strangers
  · rw [hfault, hfaults, h.faults]

/-- of a program that is just loaded nothing was told before -/
theorem placed_accounts {b : Battle G} (h : Accounts b) {id : ProgramId} (process : ProcessId) {code : List Cell}
    (start : Nat) (hload : b.checkLoadable id code = .ok ()) : Accounts (b.place id process code start) := by
  have hdeath : (b.place id process code start).told Event.death? = b.told Event.death? :=
    b.told_place_of_none process rfl
  have hsplit : (b.place id process code start).told Event.split? = b.told Event.split? :=
    b.told_place_of_none process rfl
  have hnew : id ∉ b.told Event.death? ++ b.told Event.split? :=
    fun hid => id_not_mem_of_checkLoadable hload (h.strangers id hid)
  rw [List.mem_append, not_or] at hnew
  refine ⟨fun w hw => ?_, ?_, ?_⟩
  · rcases List.mem_append.1 hw with hold | hnow
    · obtain ⟨hdeaths, hsplits⟩ := h.warriors w hold
      exact ⟨by rw [hdeath, hdeaths], by rw [hsplit, hsplits]⟩
    · obtain rfl := List.mem_singleton.1 hnow
      refine ⟨?_, ?_⟩
      · rw [hdeath]
        exact List.count_eq_zero_of_not_mem hnew.1
      · rw [hsplit]
        exact congrArg (· + 1) (List.count_eq_zero_of_not_mem hnew.2)
  · intro x hx
    rw [hdeath, hsplit] at hx
    rw [place, List.map_append]
    exact List.mem_append_left _ (h.strangers x hx)
  · rw [b.told_place_of_none process rfl, h.faults]
    rfl

section

variable {b : Battle G} {w : Warrior} (halive : w.alive = true) (i : Nat)
include halive

theorem told_turned_deaths :
    (b.takeTurn w i).conclude.2.told Event.death? =
      b.told Event.death? ++ if (b.executed w).alive then [] else [w.id] := by
  rw [b.told_turned_of_none (fun _ _ => rfl) (fun _ => rfl), turnEvents_deaths halive]

omit halive in
theorem told_turned_splits :
    ∃ n, (b.takeTurn w i).conclude.2.told Event.split? = b.told Event.split? ++ List.replicate n w.id ∧
      (b.executed w).size = w.size + n := by
  obtain ⟨n, hsplits, hsize⟩ := turnEvents_splits (b := b) (w := w)
  exact ⟨n, by rw [b.told_turned_of_none (fun _ _ => rfl) (fun _ => rfl), hsplits], hsize⟩

/-- a turn tells what becomes of the warrior whose turn it is -/
theorem Told.executed (h : b.Told w) : (b.takeTurn w i).conclude.2.Told (b.executed w) := by
  obtain ⟨n, hsplits, hsize⟩ := told_turned_splits (b := b) (w := w) i
  have hdeaths := h.deaths
  rw [halive] at hdeaths
  refine ⟨?_, ?_⟩
  · rw [told_turned_deaths halive, List.count_append, executed_id, hdeaths]
    cases (b.executed w).alive <;> simp
  · rw [hsplits, List.count_append, executed_id, List.count_replicate_self, hsize, ← h.splits]
    omega

/-- and nothing of the others -/
theorem Told.other {v : Warrior} (h : b.Told v) (hid : v.id ≠ w.id) : (b.takeTurn w i).conclude.2.Told v := by
  obtain ⟨n, hsplits, -⟩ := told_turned_splits (b := b) (w := w) i
  have hne : ¬ (w.id == v.id) = true := fun heq => hid (beq_iff_eq.1 heq).symm
  refine ⟨?_, ?_⟩
  · rw [told_turned_deaths halive, List.count_append, h.deaths]
    cases (b.executed w).alive <;> simp [hid.symm]
  · rw [hsplits, List.count_append, List.count_replicate, if_neg hne, Nat.add_zero, h.splits]

/-- whoever dies or splits in a turn is the warrior whose turn it is -/
theorem mem_told_turned {id : ProgramId} (hid : id ∈ (b.takeTurn w i).conclude.2.told Event.death? ++
      (b.takeTurn w i).conclude.2.told Event.split?) :
    id ∈ b.told Event.death? ++ b.told Event.split? ∨ id = w.id := by
  obtain ⟨n, hsplits, -⟩ := told_turned_splits (b := b) (w := w) i
  rw [told_turned_deaths halive, hsplits] at hid
  simp only [List.mem_append] at hid ⊢
  rcases hid with (hid | hid) | (hid | hid)
  · exact Or.inl (Or.inl hid)
  · cases hdead : (b.executed w).alive with
    | true =>
      rw [hdead] at hid
      exact absurd hid List.not_mem_nil
    | false =>
      rw [hdead] at hid
      exact Or.inr (List.mem_singleton.1 hid)
  · exact Or.inl (Or.inr hid)
  · exact Or.inr (List.eq_of_mem_replicate hid)

end

theorem turned_accounts {b : Battle G} (h : Accounts b) (hstanding : Standing b) {turn i : Nat} {w : Warrior}
    (hopen : b.concluded = false) (hnext : b.nextLive? turn = some (w, i)) :
    Accounts (b.takeTurn w i).conclude.2 := by
  obtain ⟨hi, halive, -⟩ := nextLive?_eq_some hnext
  have hw : w ∈ b.warriors := List.mem_of_getElem? hi
  have hdistinct := (turned_standing hstanding hopen hnext).distinct
  have hwarriors : (b.takeTurn w i).conclude.2.warriors = b.warriors.set i (b.executed w) := by
    rw [conclude_warriors, takeTurn_warriors]
  have hids := ids_turned hi
  refine ⟨fun v hv => ?_, fun id hid => ?_, ?_⟩
  · by_cases hid : v.id = w.id
    · have hnow : b.executed w ∈ b.warriors.set i (b.executed w) :=
        List.mem_of_getElem? (List.getElem?_set_self (List.getElem?_eq_some_iff.1 hi).1)
      have hself : v = b.executed w :=
        hdistinct.eq_of_id hv (hwarriors ▸ hnow) (hid.trans (b.executed_id w).symm)
      rw [hself]
      exact (h.warriors w hw).executed halive i
    · rw [hwarriors] at hv
      rcases List.mem_or_eq_of_mem_set hv with hold | rfl
      · exact (h.warriors v hold).other halive i hid
      · exact absurd (b.executed_id w) hid
  · rw [hids]
    rcases mem_told_turned halive i hid with hbefore | rfl
    · exact h.strangers id hbefore
    · exact List.mem_map_of_mem hw
  · rw [b.told_turned_of_none (fun _ _ => rfl) (fun _ => rfl), h.faults, conclude_faults, turnEvents_faults]

theorem step_accounts {b : Battle G} (hstanding : Standing b) (h : Accounts b) : Accounts b.step.2 := by
  rcases step_cases b with ⟨-, hstep⟩ | ⟨-, hstep⟩ | ⟨turn, -, -, -, hstep⟩ | ⟨turn, w, i, -, hopen, hnext, hstep⟩
  · rw [hstep]
    exact h.congr rfl rfl (b.told_emit_of_none rfl) (b.told_emit_of_none rfl) (b.told_emit_of_none rfl)
  · rw [hstep]
    exact h
  · rw [hstep]
    exact h.congr rfl rfl rfl rfl rfl
  · rw [hstep]
    exact turned_accounts h hstanding hopen hnext

/-! ## The end of the game -/

/-- an end is told iff the game is concluded, and it is the end that the game has come to -/
def Finished (b : Battle G) : Prop :=
  b.told Event.finish? = if b.concluded then [(b.outcome, b.steps)] else []

theorem step_finished {b : Battle G} (hstanding : Standing b) (h : Finished b) : Finished b.step.2 := by
  unfold Finished at h ⊢
  rcases step_cases b with ⟨-, hstep⟩ | ⟨-, hstep⟩ | ⟨turn, hturn, hopen, hnext, -⟩ |
    ⟨turn, w, i, -, hopen, -, hstep⟩
  · rw [hstep]
    exact (b.told_emit_of_none rfl).trans h
  · rw [hstep]
    exact h
  · exact absurd (nextLive?_eq_none_iff.1 hnext) (hstanding.living_ne_nil hturn hopen)
  · have hbefore : b.told Event.finish? = [] := by
      rw [h, hopen]
      rfl
    have hflag := conclude_fst (b.takeTurn w i)
    rw [hstep, told_turned, hbefore, turnEvents_finishes, conclude_concluded, takeTurn_concluded, hopen,
      conclude_outcome, conclude_steps, finishEvents]
    cases houtcome : (b.takeTurn w i).outcome with
    | running => simp [hflag.2 houtcome]
    | draw =>
      have hover : (b.takeTurn w i).conclude.1 = false := by simpa [houtcome] using mt hflag.1
      simp [hover, Event.finish?]
    | winner id =>
      have hover : (b.takeTurn w i).conclude.1 = false := by simpa [houtcome] using mt hflag.1
      simp [hover, Event.finish?]

theorem run_finished {b : Battle G} (hstanding : Standing b) (h : Finished b) (budget : Nat) :
    Finished (b.run budget).2 :=
  (run_preserves (P := fun b => Standing b ∧ Finished b)
    (fun b hb => ⟨moves_standing (step_moves b) hb.1, step_finished hb.1 hb.2⟩) ⟨hstanding, h⟩ budget).2

/-- a step that concludes the game is a turn -/
theorem step_concludes {b : Battle G} (hstanding : Standing b) (hopen : b.concluded = false)
    (hover : b.step.2.concluded = true) : ∃ t ∈ b.nextTurn?, t.after = b.step.2 := by
  rcases step_cases b with ⟨-, hstep⟩ | ⟨hover', -⟩ | ⟨turn, hturn, -, hnext, -⟩ | ⟨turn, w, i, hturn, -, hnext, -⟩
  · rw [hstep] at hover
    exact absurd hover (by simp [emit, hopen])
  · rw [hopen] at hover'
    cases hover'
  · exact absurd (nextLive?_eq_none_iff.1 hnext) (hstanding.living_ne_nil hturn hopen)
  · exact ⟨_, nextTurn?_of_next hturn hopen hnext, rfl⟩

/-- a run that concludes the game ends with a turn -/
theorem run_concludes {b : Battle G} (hstanding : Standing b) (hopen : b.concluded = false) {budget : Nat}
    (hover : (b.run budget).2.concluded = true) : ∃ t ∈ b.runTurns budget, t.after = (b.run budget).2 := by
  induction budget generalizing b with
  | zero =>
    rw [run, hopen] at hover
    cases hover
  | succ budget ih =>
    have hfirst := step_concludes hstanding hopen
    have hnext := moves_standing (step_moves b) hstanding
    simp only [run, runTurns] at hover ⊢
    rcases hstep : b.step with ⟨_ | _, next⟩
    · rw [hstep] at hover hfirst
      obtain ⟨t, ht, hafter⟩ := hfirst hover
      exact ⟨t, Option.mem_toList.2 ht, hafter⟩
    · rw [hstep] at hover hfirst hnext
      cases hgoing : next.concluded with
      | false =>
        obtain ⟨t, ht, hafter⟩ := ih hnext hgoing hover
        exact ⟨t, List.mem_append_right _ ht, hafter⟩
      | true =>
        -- the step would not have gone on
        obtain ⟨t, ht, -⟩ := hfirst hgoing
        obtain ⟨turn, w, hturn, -, -, -, -, -⟩ := nextTurn?_eq_some ht
        have hstarted : b.isStarted = true := by rw [isStarted, hturn, Option.isSome_some]
        have hflag := (hstanding.step_going hstarted hopen).2
        rw [hstep, hgoing] at hflag
        cases hflag

variable [WordSource G]

/-- a request that concludes the game ends with a turn -/
theorem perform_concludes {b : Battle G} (hstanding : Standing b) (hopen : b.concluded = false) {request : Request}
    (hover : (b.perform request).2.concluded = true) :
    ∃ t ∈ b.requestTurns request, t.after = (b.perform request).2 := by
  rcases perform_cases b request with ⟨-, generator, id, process, code, start, -, -, -, h⟩ |
    ⟨-, ⟨generator, h⟩ | ⟨-, -, h⟩ | ⟨rfl, -⟩ | ⟨budget, rfl, -⟩⟩
  · rw [h] at hover
    exact absurd hover (by simp [place, hopen])
  · rw [h] at hover
    exact absurd hover (by simp [hopen])
  · rw [h] at hover
    exact absurd hover (by simp [hopen])
  · obtain ⟨t, ht, hafter⟩ := step_concludes hstanding hopen hover
    exact ⟨t, Option.mem_toList.2 ht, hafter⟩
  · exact run_concludes hstanding hopen hover

theorem perform_finished {b : Battle G} (hstanding : Standing b) (hopen : b.concluded = false) (h : Finished b)
    (request : Request) : Finished (b.perform request).2 := by
  rcases perform_cases b request with ⟨-, generator, id, process, code, start, -, -, -, heq⟩ |
    ⟨-, ⟨generator, heq⟩ | ⟨-, -, heq⟩ | ⟨-, heq⟩ | ⟨budget, -, heq⟩⟩
  · unfold Finished at h ⊢
    have hstill : (({ b with generator } : Battle G).place id process code start).concluded = false := hopen
    rw [hopen] at h
    rw [heq, told_place_of_none _ process rfl, hstill]
    exact h
  · rw [heq]; exact h
  · unfold Finished at h ⊢
    have hstill : ({ b with turn := some 0 } : Battle G).concluded = false := hopen
    rw [hopen] at h
    rw [heq, hstill]
    exact h
  · rw [heq]; exact step_finished hstanding h
  · rw [heq]; exact run_finished hstanding h budget

/-- no end is told of a game that is concluded already -/
theorem told_finish_of_concluded {b : Battle G} (h : b.concluded = true) (requests : List Request) :
    (b.after requests).told Event.finish? = b.told Event.finish? := by
  have hall := after_preserves
    (P := fun c => c.concluded = true ∧ c.told Event.finish? = b.told Event.finish?) (fun c _ hc => hc)
    (fun c id process code start _ hc => ⟨hc.1, ?_⟩) (fun c _ hc => hc) (fun c hc => ?_) ⟨h, rfl⟩ requests
  · exact hall.2
  · exact (c.told_place_of_none process rfl).trans hc.2
  · rcases step_cases c with ⟨-, hstep⟩ | ⟨-, hstep⟩ | ⟨turn, -, hopen, -⟩ | ⟨turn, w, i, -, hopen, -⟩
    · rw [hstep]
      exact ⟨hc.1, (c.told_emit_of_none rfl).trans hc.2⟩
    · rw [hstep]
      exact hc
    · rw [hc.1] at hopen
      cases hopen
    · rw [hc.1] at hopen
      cases hopen

/-- the end that is told is the one that the last turn came to -/
theorem told_finish_after {b : Battle G} (hstanding : Standing b) (hopen : b.concluded = false) (h : Finished b)
    (requests : List Request) :
    ((b.after requests).concluded = false → (b.after requests).told Event.finish? = []) ∧
      ((b.after requests).concluded = true → ∃ t ∈ b.turns requests, t.after.steps = (b.after requests).steps ∧
        t.after.outcome ≠ .running ∧
        (b.after requests).told Event.finish? = [(t.after.outcome, (b.after requests).steps)]) := by
  induction requests generalizing b with
  | nil =>
    unfold Finished at h
    rw [hopen] at h
    exact ⟨fun _ => h, fun hover => absurd (hopen.symm.trans hover) Bool.false_ne_true⟩
  | cons request rest ih =>
    have hnext := moves_standing (perform_moves b request) hstanding
    have hfinished := perform_finished hstanding hopen h request
    rw [after_cons]
    cases hover : (b.perform request).2.concluded with
    | false =>
      obtain ⟨hgoing, hend⟩ := ih hnext hover hfinished
      refine ⟨hgoing, fun hconcluded => ?_⟩
      obtain ⟨t, ht, hrest⟩ := hend hconcluded
      exact ⟨t, List.mem_append_right _ ht, hrest⟩
    | true =>
      have hfrozen := after_concluded hover rest
      refine ⟨fun hgoing => absurd (hfrozen.concluded.symm.trans hgoing) Bool.noConfusion, fun _ => ?_⟩
      obtain ⟨t, ht, hafter⟩ := perform_concludes hstanding hopen hover
      have hdecided : Decided (b.perform request).2 :=
        perform_decided hstanding (fun hc => absurd (hopen.symm.trans hc) Bool.false_ne_true) request
          (fun hc => absurd (hopen.symm.trans hc) Bool.false_ne_true)
      unfold Finished at hfinished
      rw [hover, if_pos rfl] at hfinished
      rw [hfrozen.steps, told_finish_of_concluded hover rest, hfinished]
      exact ⟨t, List.mem_append_left _ ht, congrArg steps hafter, hafter ▸ hdecided hover, by rw [hafter]⟩

/-! ## Loadings -/

omit [WordSource G] in
theorem told_loading_step (b : Battle G) : b.step.2.told Event.loading? = b.told Event.loading? := by
  rcases step_cases b with ⟨-, hstep⟩ | ⟨-, hstep⟩ | ⟨turn, -, -, -, hstep⟩ | ⟨turn, w, i, -, -, -, hstep⟩
  · rw [hstep]
    exact b.told_emit_of_none rfl
  · rw [hstep]
  · rw [hstep]
    rfl
  · rw [hstep, b.told_turned_of_none (fun _ _ => rfl) (fun _ => rfl), turnEvents_loadings, List.append_nil]

/-- the loadings told are the programs loaded, in load order -/
theorem told_loading_after (b : Battle G) (requests : List Request) :
    (b.after requests).told Event.loading? = b.told Event.loading? ++ (b.loaded requests).map Loading.told := by
  induction requests generalizing b with
  | nil => exact (List.append_nil _).symm
  | cons request rest ih =>
    have hfirst : (b.perform request).2.told Event.loading? =
        b.told Event.loading? ++ (b.loading? request).toList.map Loading.told := by
      cases h : b.loading? request with
      | some l =>
        obtain ⟨-, -, -, generator, heq⟩ := perform_of_loading h
        rw [heq, told_place]
        rfl
      | none =>
        rw [Option.toList_none, List.map_nil, List.append_nil]
        rcases perform_of_no_loading h with ⟨generator, heq⟩ | ⟨-, -, heq⟩ | ⟨-, heq⟩ | ⟨budget, -, heq⟩
        · rw [heq]; rfl
        · rw [heq]; rfl
        · rw [heq]; exact told_loading_step b
        · rw [heq]
          exact run_preserves (P := fun c => c.told Event.loading? = b.told Event.loading?)
            (fun c hc => (told_loading_step c).trans hc) rfl budget
    rw [after_cons, ih, hfirst, loaded, List.map_append, List.append_assoc]

/-! ## Main result -/

theorem accounts_after {rules : Rules} {g : G} {b₀ : Battle G} (h₀ : ofRules rules g = .ok b₀)
    (requests : List Request) : Accounts (b₀.after requests) := by
  have hnew : Accounts b₀ := by
    obtain ⟨-, rfl⟩ := ofRules_ok h₀
    exact ⟨by simp, by simp [told], rfl⟩
  have hall := after_preserves (P := fun b => Standing b ∧ Accounts b)
    (fun b generator hb => ⟨move_standing (.noted generator b.log) hb.1, hb.2.congr rfl rfl rfl rfl rfl⟩)
    (fun b id process code start hload hb => ⟨placed_standing hb.1 hload, placed_accounts hb.2 process start hload⟩)
    (fun b hloaded hb => ⟨move_standing (.opened hloaded) hb.1, hb.2.congr rfl rfl rfl rfl rfl⟩)
    (fun b hb => ⟨moves_standing (step_moves b) hb.1, step_accounts hb.1 hb.2⟩) ⟨standing_ofRules h₀, hnew⟩ requests
  exact hall.2

/-- **Accounts.** After any sequence of requests to a new battle, the log tells:
- the programs loaded, each once and in load order, with their starts and lengths; the warriors are these;
- of each warrior its death, by DAT or by a fault, once if it is dead and not if it is alive, and one split for each of
  its processes but the first; and nothing of the kind of anybody else;
- the faults, in order, as they are recorded;
- the end of the game, once if it is concluded and not if it goes on: with the steps made, and as it was after the turn
  that made the last of them, won by the only one who was alive then, or drawn with nobody alive. -/
theorem account_law {rules : Rules} {g : G} {b₀ : Battle G} (h₀ : ofRules rules g = .ok b₀)
    (requests : List Request) :
    let b := b₀.after requests
    (b.told Event.loading? = (b₀.loaded requests).map (fun l => (l.id, l.start, l.code.length)) ∧
      b.warriors.map Warrior.stamp = (b₀.loaded requests).map Loading.stamp) ∧
    ((∀ w ∈ b.warriors, (b.told Event.death?).count w.id = (if w.alive then 0 else 1) ∧
        (b.told Event.split?).count w.id + 1 = w.processes.length) ∧
      ∀ id ∈ b.told Event.death? ++ b.told Event.split?, ∃ w ∈ b.warriors, w.id = id) ∧
    b.told Event.fault? = b.faults ∧
    (b.concluded = false → b.told Event.finish? = []) ∧
    (b.concluded = true → ∃ t ∈ b₀.turns requests, t.after.steps = b.steps ∧
      ((∃ id, t.after.aliveIds = [id] ∧ b.told Event.finish? = [(.winner id, b.steps)]) ∨
        (t.after.aliveIds = [] ∧ b.told Event.finish? = [(.draw, b.steps)]))) := by
  intro b
  have haccounts : Accounts b := accounts_after h₀ requests
  have hnew : b₀.told Event.loading? = [] ∧ b₀.concluded = false ∧ Finished b₀ := by
    obtain ⟨-, rfl⟩ := ofRules_ok h₀
    exact ⟨rfl, rfl, rfl⟩
  obtain ⟨hgoing, hend⟩ := told_finish_after (standing_ofRules h₀) hnew.2.1 hnew.2.2 requests
  refine ⟨⟨?_, stamps_after_new h₀ requests⟩, ⟨fun w hw => ⟨(haccounts.warriors w hw).deaths, ?_⟩, fun id hid => ?_⟩,
    haccounts.faults, hgoing, fun hover => ?_⟩
  · rw [told_loading_after, hnew.1, List.nil_append]
    rfl
  · rw [(haccounts.warriors w hw).splits]
    exact (Rotation.length_processes w.rotation).symm
  · exact List.mem_map.1 (haccounts.strangers id hid)
  · obtain ⟨t, ht, hsteps, houtcome, htold⟩ := hend hover
    obtain ⟨hmoves, htaken⟩ := mem_turns ht
    obtain ⟨turn, w, -, -, -, -, -, hafter⟩ := nextTurn?_eq_some htaken
    have hstanding : Standing t.after := by
      rw [hafter]
      exact moves_standing (hmoves.trans (step_moves t.before)) (standing_ofRules h₀)
    refine ⟨t, ht, hsteps, ?_⟩
    cases hresult : t.after.outcome with
    | running => exact absurd hresult houtcome
    | winner id =>
      rw [hresult] at htold
      exact Or.inl ⟨id, (hstanding.winner_iff id).1 hresult, htold⟩
    | draw =>
      rw [hresult] at htold
      exact Or.inr ⟨(hstanding.draw_iff.1 hresult).2, htold⟩

/-- a battle in ten cells, in which a program may have three processes -/
def threeProcesses : Battle Random.Counter :=
  { rules := { coreSize := 10, maxProcesses := 3 }, core := .blank 10, generator := ⟨0, 1⟩ }

/-- a program splits twice and wins, as another one is at fault and a third runs into its own bomb; that it has won is
told and stays so, though one more is loaded afterwards -/
theorem account_law_splitter :
    let requests : List Request :=
      [.step, .loadAt 0 0 [{ op := .spl, a := ⟨0, some .direct⟩ }, Cell.jmp (-1)] 0,
        .loadAt 1 0 (List.replicate 5 Cell.empty ++ [Cell.data]) (-6), .start, .run 2, .loadAt 0 0 [Cell.data] 2,
        .loadAt 2 0 [{ op := .spl }] 3, .run 20, .loadAt 3 0 [Cell.jmp 0] 2, .run 20]
    let b := threeProcesses.after requests
    ofRules threeProcesses.rules threeProcesses.generator = .ok threeProcesses ∧ b.concluded = true ∧
      b.outcome = .running ∧ b.told Event.finish? = [(.winner 0, 13)] ∧
      (∃ t ∈ threeProcesses.turns requests, t.after.steps = 13 ∧ t.after.aliveIds = [0]) ∧
      b.told Event.loading? = [(0, 0, 2), (1, 4, 6), (2, 3, 1), (3, 2, 1)] ∧
      b.told Event.fault? = [⟨5, 2, .missingMode 3 .a⟩] ∧
      b.warriors.map (fun w => (w.alive, w.processes.length)) = [(true, 3), (false, 1), (false, 1), (true, 1)] ∧
      ∀ w ∈ b.warriors, (b.told Event.death?).count w.id = (if w.alive then 0 else 1) ∧
        (b.told Event.split?).count w.id + 1 = w.processes.length := by
  intro requests b
  have hnew : ofRules threeProcesses.rules threeProcesses.generator = .ok threeProcesses := rfl
  have hover : b.concluded = true := by decide +kernel
  have hsteps : b.steps = 13 := by decide +kernel
  have hwon : b.told Event.finish? = [(.winner 0, 13)] := by decide +kernel
  have hfaults : b.faults = [⟨5, 2, .missingMode 3 .a⟩] := by decide +kernel
  have hloaded : (threeProcesses.loaded requests).map (fun l => (l.id, l.start, l.code.length)) =
      [(0, 0, 2), (1, 4, 6), (2, 3, 1), (3, 2, 1)] := by decide +kernel
  obtain ⟨⟨hloadings, -⟩, ⟨hwarriors, -⟩, htold, -, hend⟩ := account_law hnew requests
  refine ⟨hnew, hover, by decide +kernel, hwon, ?_, hloadings.trans hloaded, htold.trans hfaults, by decide +kernel,
    hwarriors⟩
  obtain ⟨t, ht, hmade, ⟨id, halive, hwinner⟩ | ⟨-, hdrawn⟩⟩ := hend hover
  · rw [hwon] at hwinner
    obtain ⟨⟨⟩, -⟩ := List.cons.inj hwinner
    exact ⟨t, ht, hmade.trans hsteps, halive⟩
  · rw [hwon] at hdrawn
    obtain ⟨⟨⟩, -⟩ := List.cons.inj hdrawn

end Battle

end CoreWar
