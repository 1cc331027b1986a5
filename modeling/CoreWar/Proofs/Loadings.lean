/-
Loadings: which programs were loaded, and what their warriors keep of it.

A refused request loads nothing, and a random loading chooses its own place, so the sequence of requests does not tell
what was loaded. `loaded` does: it lists the programs in load order, each with the number of its processes, its code as
it was handed in, and its place.

- `perform_of_loading`, `perform_of_no_loading`: all that a request can come to, by whether it loads.
- `stamps_after`: the warriors are the programs loaded, in order, and never lose their id or their code.
-/
import CoreWar.Proofs.Moves
import CoreWar.Proofs.Survivors

namespace CoreWar

/-- a program that was loaded, and the place where its code starts -/
structure Loading where
  id : ProgramId
  process : ProcessId
  code : List Cell
  start : Nat
deriving DecidableEq, Repr

/-- the code as it is written to the core and kept by the warrior -/
def Loading.stamped (l : Loading) : List Cell := l.code.map (Cell.ownedBy l.id l.process)

/-- what a warrior keeps for good -/
def Warrior.stamp (w : Warrior) : ProgramId × List Cell := (w.id, w.code)

def Loading.stamp (l : Loading) : ProgramId × List Cell := (l.id, l.stamped)

@[simp] theorem Warrior.stamp_next (w : Warrior) : w.next.2.stamp = w.stamp := rfl

@[simp] theorem Effect.stamp_onWarrior (w : Warrior) (effect : Effect) : (effect.onWarrior w).stamp = w.stamp := by
  cases effect <;> rfl

namespace Battle

variable {G : Type}

/-! ## What the warriors keep -/

/-- the ids and codes of the warriors, in load order -/
def stamps (b : Battle G) : List (ProgramId × List Cell) := b.warriors.map Warrior.stamp

@[simp] theorem executed_stamp (b : Battle G) (w : Warrior) : (b.executed w).stamp = w.stamp := by
  simp only [executed]
  split
  · simp
  · rfl

theorem stamps_takeTurn {b : Battle G} {w : Warrior} {i : Nat} (hi : b.warriors[i]? = some w) :
    (b.takeTurn w i).stamps = b.stamps := by
  have hstamp : b.stamps[i]? = some w.stamp := by simp [stamps, hi]
  obtain ⟨hlt, hget⟩ := List.getElem?_eq_some_iff.1 hstamp
  simp only [stamps, takeTurn_warriors, List.map_set, executed_stamp]
  rw [← hget]
  exact List.set_getElem_self hlt

@[simp] theorem stamps_conclude (b : Battle G) : b.conclude.2.stamps = b.stamps := by
  simp [stamps]

@[simp] theorem stamps_place (b : Battle G) (id : ProgramId) (process : ProcessId) (code : List Cell) (start : Nat) :
    (b.place id process code start).stamps = b.stamps ++ [Loading.stamp ⟨id, process, code, start⟩] := by
  simp [stamps, place, Warrior.load, Warrior.stamp, Loading.stamp, Loading.stamped]

theorem stamps_step (b : Battle G) : b.step.2.stamps = b.stamps := by
  rcases step_cases b with ⟨-, h⟩ | ⟨-, h⟩ | ⟨turn, -, -, -, h⟩ | ⟨turn, w, i, -, -, hnext, h⟩
  · rw [h]; rfl
  · rw [h]
  · rw [h]; rfl
  · rw [h, stamps_conclude, stamps_takeTurn (nextLive?_eq_some hnext).1]

theorem stamps_run (b : Battle G) (budget : Nat) : (b.run budget).2.stamps = b.stamps :=
  run_preserves (P := fun b' => b'.stamps = b.stamps) (fun b' h => (stamps_step b').trans h) rfl budget

/-! ## What is loaded -/

variable [WordSource G]

/-- what the request loads, if it loads -/
def loading? (b : Battle G) : Request → Option Loading
  | .load id process code => (b.load id process code).1.toOption.map fun start => ⟨id, process, code, start⟩
  | .loadAt id process code address =>
    (b.loadAt id process code address).toOption.map fun _ => ⟨id, process, code, b.core.index address⟩
  | .start | .step | .run _ => none

/-- what is loaded by a sequence of requests, in load order -/
def loaded (b : Battle G) : List Request → List Loading
  | [] => []
  | request :: rest => (b.loading? request).toList ++ (b.perform request).2.loaded rest

theorem loaded_append (b : Battle G) (first rest : List Request) :
    b.loaded (first ++ rest) = b.loaded first ++ (b.after first).loaded rest := by
  induction first generalizing b with
  | nil => rfl
  | cons request first ih => rw [List.cons_append, loaded, ih, loaded, List.append_assoc, after_cons]

/-- a request that loads puts its code into free cells -/
theorem perform_of_loading {b : Battle G} {request : Request} {l : Loading} (h : b.loading? request = some l) :
    b.checkLoadable l.id l.code = .ok () ∧
      b.core.firstOccupied? b.rules.placement l.start l.code.length = none ∧ l.start < b.core.size ∧
      ∃ generator, (b.perform request).2 = { b with generator }.place l.id l.process l.code l.start := by
  cases request with
  | load id process code =>
    rcases load_cases b id process code with ⟨refusal, generator, heq⟩ | ⟨generator, start, hload, hfree, hlt, heq⟩
    · simp [loading?, heq, Except.toOption] at h
    · simp only [loading?, heq, Except.toOption, Option.map_some, Option.some.injEq] at h
      subst h
      exact ⟨hload, hfree, hlt, generator, by simp [perform, heq]⟩
  | loadAt id process code address =>
    rcases loadAt_cases b id process code address with ⟨refusal, heq⟩ | ⟨hload, hfree, hlt, heq⟩
    · simp [loading?, heq, Except.toOption] at h
    · simp only [loading?, heq, Except.toOption, Option.map_some, Option.some.injEq] at h
      subst h
      exact ⟨hload, hfree, hlt, b.generator, by simp [perform, heq]⟩
  | start => cases h
  | step => cases h
  | run budget => cases h

/-- a request that does not load is refused, opens the game, or plays it -/
theorem perform_of_no_loading {b : Battle G} {request : Request} (h : b.loading? request = none) :
    (∃ generator, (b.perform request).2 = { b with generator }) ∨
      (request = .start ∧ b.warriors ≠ [] ∧ (b.perform request).2 = { b with turn := some 0 }) ∨
      (request = .step ∧ (b.perform request).2 = b.step.2) ∨
      ∃ budget, request = .run budget ∧ (b.perform request).2 = (b.run budget).2 := by
  rcases perform_cases b request with ⟨hloads, -⟩ | ⟨-, hplain⟩
  · -- only a loading that succeeds is answered as one
    cases request with
    | load id process code =>
      rcases load_cases b id process code with ⟨refusal, generator, heq⟩ | ⟨generator, start, -, -, -, heq⟩
      · simp [perform, heq, Request.loads] at hloads
      · simp [loading?, heq, Except.toOption] at h
    | loadAt id process code address =>
      rcases loadAt_cases b id process code address with ⟨refusal, heq⟩ | ⟨-, -, -, heq⟩
      · simp [perform, heq, Request.loads] at hloads
      · simp [loading?, heq, Except.toOption] at h
    | start => cases hloads
    | step => cases hloads
    | run budget => cases hloads
  · exact hplain

theorem stamps_perform (b : Battle G) (request : Request) :
    (b.perform request).2.stamps = b.stamps ++ (b.loading? request).toList.map Loading.stamp := by
  cases h : b.loading? request with
  | some l =>
    obtain ⟨-, -, -, generator, heq⟩ := perform_of_loading h
    rw [heq, stamps_place]
    rfl
  | none =>
    simp only [Option.toList_none, List.map_nil, List.append_nil]
    rcases perform_of_no_loading h with ⟨generator, heq⟩ | ⟨-, -, heq⟩ | ⟨-, heq⟩ | ⟨budget, -, heq⟩
    · rw [heq]; rfl
    · rw [heq]; rfl
    · rw [heq]; exact stamps_step b
    · rw [heq]; exact stamps_run b budget

/-- **Warriors are the programs loaded.** They stand in load order, and each keeps its id and its code. -/
theorem stamps_after (b : Battle G) (requests : List Request) :
    (b.after requests).stamps = b.stamps ++ (b.loaded requests).map Loading.stamp := by
  induction requests generalizing b with
  | nil => simp [after, replay, loaded]
  | cons request rest ih =>
    rw [after_cons, ih, stamps_perform, loaded, List.map_append, List.append_assoc]

/-- in a battle that was new, the stamps are those of the programs loaded -/
theorem stamps_after_new {rules : Rules} {g : G} {b₀ : Battle G} (h₀ : ofRules rules g = .ok b₀)
    (requests : List Request) : (b₀.after requests).stamps = (b₀.loaded requests).map Loading.stamp := by
  have hnew : b₀.stamps = [] := by
    rw [(ofRules_ok h₀).2]
    rfl
  rw [stamps_after, hnew, List.nil_append]

end Battle

end CoreWar
