/-
Budgets: how many instructions a run executes.

A run stops at the first step that does not go on. Asking for more would change nothing: a game that is not opened, or
that is concluded, refuses every further step. So it does not matter how steps are divided into runs, or whether they
are requested one by one. Only the log can tell, and only before the game is opened: every single step that is refused
then is reported, but of a run only the first.

- `step_of_refused`: an opened game that does not go on refuses every further step, and stays as it is.
- `run_add`, `run_eq_after_steps`: budgets add up, and a run is as many single steps.
- `run_progress`: a run of a game that is going on executes an instruction for each step of its budget, until the game
  is concluded.
- `composition_law`: all this, after every sequence of requests to a new battle.
-/
import CoreWar.Proofs.Conclusion
import CoreWar.Roster

namespace CoreWar

namespace Battle

variable {G : Type}

/-- the battle without its log -/
def silent (b : Battle G) : Battle G := { b with log := #[] }

theorem turn_of_not_started {b : Battle G} (h : b.isStarted = false) : b.turn = none := by
  simpa [isStarted] using h

/-! ## One step of a run -/

theorem run_of_going {b next : Battle G} (h : b.step = (true, next)) (budget : Nat) :
    b.run (budget + 1) = next.run budget := by
  rw [run, h]

theorem run_of_refused {b next : Battle G} (h : b.step = (false, next)) (budget : Nat) :
    b.run (budget + 1) = (next.outcome, next) := by
  rw [run, h]

/-- a run gives the outcome of the battle it leads to -/
theorem run_fst (b : Battle G) (budget : Nat) : (b.run budget).1 = (b.run budget).2.outcome := by
  induction budget generalizing b with
  | zero => rfl
  | succ budget ih =>
    rcases hstep : b.step with ⟨_ | _, next⟩
    · rw [run_of_refused hstep]
    · rw [run_of_going hstep]
      exact ih next

theorem isStarted_step {b : Battle G} (h : b.isStarted = true) : b.step.2.isStarted = true := by
  rcases step_cases b with ⟨-, hstep⟩ | ⟨-, hstep⟩ | ⟨turn, -, -, -, hstep⟩ | ⟨turn, w, i, -, -, -, hstep⟩
  · rw [hstep]
    exact h
  · rw [hstep]
    exact h
  · rw [hstep]
    exact h
  · rw [hstep, isStarted, conclude_turn, takeTurn_turn, Option.isSome_some]

/-! ## Steps that do not go on -/

/-- an opened game that does not go on refuses every further step, and stays as it is -/
theorem step_of_refused {b : Battle G} (hstarted : b.isStarted = true) (h : b.step.1 = false) :
    b.step.2.step = (false, b.step.2) := by
  obtain ⟨turn, hturn⟩ := Option.isSome_iff_exists.1 (isStarted_step hstarted)
  apply step_of_concluded hturn
  rcases step_cases b with ⟨hclosed, -⟩ | ⟨hover, hstep⟩ | ⟨turn, -, -, -, hstep⟩ | ⟨turn, w, i, -, -, -, hstep⟩
  · rw [isStarted, hclosed] at hstarted
    cases hstarted
  · rw [hstep]
    exact hover
  · rw [hstep]
  · rw [hstep] at h ⊢
    rw [conclude_concluded, h, Bool.not_false, Bool.or_true]

theorem run_of_idle {b : Battle G} (h : b.step = (false, b)) (budget : Nat) : (b.run budget).2 = b := by
  cases budget with
  | zero => rfl
  | succ budget => rw [run_of_refused h]

/-- before the game is opened, only the log can tell that steps were requested -/
theorem run_of_not_started {b : Battle G} (h : b.turn = none) (budget : Nat) :
    ∃ log, (b.run budget).2 = { b with log } := by
  cases budget with
  | zero => exact ⟨b.log, rfl⟩
  | succ budget =>
    rw [run_of_refused (step_of_not_started h)]
    exact ⟨_, rfl⟩

/-! ## Budgets -/

/-- the budgets of runs add up -/
theorem run_add {b : Battle G} (hstarted : b.isStarted = true) (m n : Nat) :
    (b.run (m + n)).2 = ((b.run m).2.run n).2 := by
  induction m generalizing b with
  | zero => rw [Nat.zero_add, run]
  | succ m ih =>
    have hnext := isStarted_step hstarted
    have hrefused := step_of_refused hstarted
    rw [Nat.add_right_comm]
    rcases hstep : b.step with ⟨_ | _, next⟩
    · rw [hstep] at hrefused
      rw [run_of_refused hstep, run_of_refused hstep]
      exact (run_of_idle (hrefused rfl) n).symm
    · rw [hstep] at hnext
      rw [run_of_going hstep, run_of_going hstep]
      exact ih hnext

/-- a run of a game that is going on executes an instruction for each step of its budget, until the game is concluded -/
theorem run_progress {b : Battle G} (h : Standing b) (hstarted : b.isStarted = true) (hopen : b.concluded = false)
    (m : Nat) :
    ∃ k ≤ m, (b.run m).2 = (b.run k).2 ∧ (b.run m).2.steps = b.steps + k ∧
      (∀ j < k, (b.run j).2.concluded = false) ∧ ((b.run m).2.concluded = false → k = m) := by
  induction m generalizing b with
  | zero =>
    refine ⟨0, Nat.le_refl 0, rfl, rfl, ?_, fun _ => rfl⟩
    intro j hj
    exact absurd hj (Nat.not_lt_zero j)
  | succ m ih =>
    have hnext : Standing b.step.2 := moves_standing (step_moves b) h
    have hgoing := (h.step_going hstarted hopen).2
    have hopened := isStarted_step hstarted
    have hsteps := h.steps_step hstarted hopen
    rcases hstep : b.step with ⟨_ | _, next⟩
    · rw [hstep] at hgoing hsteps
      refine ⟨1, Nat.succ_pos m, ?_, ?_, ?_, ?_⟩
      · rw [run_of_refused hstep, run_of_refused hstep]
      · rw [run_of_refused hstep]
        exact hsteps
      · intro j hj
        obtain rfl : j = 0 := Nat.lt_one_iff.1 hj
        exact hopen
      · intro hstill
        rw [run_of_refused hstep, hgoing] at hstill
        cases hstill
    · rw [hstep] at hgoing hsteps hnext hopened
      obtain ⟨k, hk, hsame, hcount, hbefore, hlast⟩ := ih hnext hopened hgoing
      refine ⟨k + 1, Nat.succ_le_succ hk, ?_, ?_, ?_, ?_⟩
      · rw [run_of_going hstep, run_of_going hstep, hsame]
      · rw [run_of_going hstep, hcount, hsteps]
        omega
      · intro j hj
        cases j with
        | zero => exact hopen
        | succ j =>
          rw [run_of_going hstep]
          exact hbefore j (Nat.lt_of_succ_lt_succ hj)
      · intro hstill
        rw [run_of_going hstep] at hstill
        rw [hlast hstill]

/-- shorter runs execute their whole budget -/
theorem run_steps_of_le {b : Battle G} (h : Standing b) (hstarted : b.isStarted = true) (hopen : b.concluded = false)
    {m i : Nat} (hi : b.steps + i ≤ (b.run m).2.steps) : (b.run i).2.steps = b.steps + i := by
  obtain ⟨k, -, hsame, hsteps, hbefore, -⟩ := run_progress h hstarted hopen m
  by_cases hlast : i = k
  · rw [hlast, ← hsame, hsteps]
  · have hgoing := hbefore i (by omega)
    obtain ⟨j, -, -, hcount, -, hwhole⟩ := run_progress h hstarted hopen i
    rw [hcount, hwhole hgoing]

variable [WordSource G]

/-- a run of an opened game is as many single steps -/
theorem run_eq_after_steps {b : Battle G} (hstarted : b.isStarted = true) (n : Nat) :
    (b.run n).2 = b.after (List.replicate n .step) := by
  induction n generalizing b with
  | zero => rfl
  | succ n ih =>
    have hnext := isStarted_step hstarted
    calc (b.run (n + 1)).2 = ((b.run 1).2.run n).2 := by rw [Nat.add_comm, run_add hstarted]
      _ = (b.step.2.run n).2 := by
        rcases hstep : b.step with ⟨_ | _, next⟩
        · rw [run_of_refused hstep]
        · rw [run_of_going hstep, run]
      _ = b.step.2.after (List.replicate n .step) := ih hnext

/-- before the game is opened, single steps leave their reports and nothing else -/
theorem after_steps_of_not_started {b : Battle G} (h : b.turn = none) (n : Nat) :
    ∃ log, b.after (List.replicate n .step) = { b with log } := by
  induction n generalizing b with
  | zero => exact ⟨b.log, rfl⟩
  | succ n ih =>
    have hstep : b.step.2 = b.emit .notStarted := by rw [step_of_not_started h]
    obtain ⟨log, hrest⟩ := ih (b := b.emit .notStarted) h
    refine ⟨log, ?_⟩
    calc b.after (List.replicate (n + 1) .step) = b.step.2.after (List.replicate n .step) := rfl
      _ = { b.emit .notStarted with log } := by rw [hstep, hrest]
      _ = { b with log } := rfl

/-! ## Main result -/

/-- **Composition of runs.** Let `b` be a new battle after any sequence of requests.
- Two runs, one after the other, give the outcome and lead to the state of one run with both budgets together. If the
  game is opened, not even the log can tell them apart.
- A run leads to the same state as that many single steps and, if the game is opened, to the same log.
- If the game is opened and not concluded, a run executes some number `k` of instructions, which is its whole budget
  unless the game is concluded after them; after fewer steps it was not. -/
theorem composition_law {rules : Rules} {g : G} {b₀ : Battle G} (h₀ : ofRules rules g = .ok b₀)
    (requests : List Request) :
    let b := b₀.after requests
    (∀ m n, ((b.run m).2.run n).1 = (b.run (m + n)).1 ∧ ((b.run m).2.run n).2.silent = (b.run (m + n)).2.silent ∧
      (b.isStarted = true → ((b.run m).2.run n).2 = (b.run (m + n)).2)) ∧
    (∀ m, (b.run m).2.silent = (b.after (List.replicate m .step)).silent ∧
      (b.isStarted = true → (b.run m).2 = b.after (List.replicate m .step))) ∧
    (b.isStarted = true → b.concluded = false → ∀ m, ∃ k ≤ m,
      (b.run m).2 = b.after (List.replicate k .step) ∧ (b.run m).2.steps = b.steps + k ∧
      (∀ j < k, (b.after (List.replicate j .step)).concluded = false) ∧
      ((b.run m).2.concluded = true ∨ k = m)) := by
  intro b
  have hstanding : Standing b := standing_after h₀ requests
  refine ⟨?_, ?_, ?_⟩
  · intro m n
    cases hstarted : b.isStarted with
    | true =>
      have hsame := run_add hstarted m n
      refine ⟨?_, ?_, fun _ => hsame.symm⟩
      · rw [run_fst, run_fst, hsame]
      · rw [hsame]
    | false =>
      -- all three runs leave the battle as it was, but for the log
      have hturn := turn_of_not_started hstarted
      obtain ⟨log, hfirst⟩ := run_of_not_started hturn m
      obtain ⟨log', hsecond⟩ := run_of_not_started (b := { b with log }) hturn n
      obtain ⟨log'', hboth⟩ := run_of_not_started hturn (m + n)
      rw [run_fst, run_fst, hfirst, hsecond, hboth]
      refine ⟨rfl, rfl, ?_⟩
      intro hopened
      cases hopened
  · intro m
    cases hstarted : b.isStarted with
    | true =>
      have hsame := run_eq_after_steps hstarted m
      refine ⟨?_, fun _ => hsame⟩
      rw [hsame]
    | false =>
      have hturn := turn_of_not_started hstarted
      obtain ⟨log, hrun⟩ := run_of_not_started hturn m
      obtain ⟨log', hsingle⟩ := after_steps_of_not_started hturn m
      rw [hrun, hsingle]
      refine ⟨rfl, ?_⟩
      intro hopened
      cases hopened
  · intro hstarted hopen m
    obtain ⟨k, hk, hsame, hsteps, hbefore, hlast⟩ := run_progress hstanding hstarted hopen m
    refine ⟨k, hk, ?_, hsteps, ?_, ?_⟩
    · rw [hsame, run_eq_after_steps hstarted]
    · intro j hj
      rw [← run_eq_after_steps hstarted]
      exact hbefore j hj
    · cases hover : (b.run m).2.concluded with
      | true => exact Or.inl rfl
      | false => exact Or.inr (hlast hover)

/-- a new battle in eight cells, where nothing is drawn -/
def eightEmpty : Battle Random.Counter := { rules := { coreSize := 8 }, core := .blank 8, generator := ⟨0, 1⟩ }

/-- an imp wins against a jump two cells ahead by the fourth instruction, be it in two runs, in one, or step by step; a
step before the start is only reported -/
theorem composition_law_imp :
    let requests : List Request := [.loadAt 0 0 Roster.imp 0, .step, .loadAt 1 0 [Cell.jmp 0] 2, .start]
    let b := eightEmpty.after requests
    ofRules eightEmpty.rules eightEmpty.generator = .ok eightEmpty ∧ b.isStarted = true ∧ b.concluded = false ∧
      ((b.run 2).2.run 7).1 = .winner 0 ∧ (b.run 9).2 = b.after (List.replicate 4 .step) ∧
      (b.after (List.replicate 3 .step)).concluded = false := by
  intro requests b
  have hnew : ofRules eightEmpty.rules eightEmpty.generator = .ok eightEmpty := rfl
  have hstarted : b.isStarted = true := by decide +kernel
  have hopen : b.concluded = false := by decide +kernel
  have hwon : (b.run 9).1 = .winner 0 := by decide +kernel
  have hcount : ((eightEmpty.after requests).run 9).2.steps = 4 ∧ (eightEmpty.after requests).steps = 0 := by
    decide +kernel
  obtain ⟨hsum, -, hprogress⟩ := composition_law hnew requests
  obtain ⟨k, -, hsame, hsteps, hbefore, -⟩ := hprogress hstarted hopen 9
  have hfour : k = 4 := by omega
  have hboth : ((b.run 2).2.run 7).1 = .winner 0 := by
    rw [(hsum 2 7).1]
    exact hwon
  rw [hfour] at hsame hbefore
  exact ⟨hnew, hstarted, hopen, hboth, hsame, hbefore 3 (by decide)⟩

end Battle

end CoreWar
