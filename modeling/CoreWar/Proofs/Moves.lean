/-
Moves: the elementary changes of a battle.

Whatever is requested, a battle changes by moves of four kinds only: bookkeeping (the generator and the log), loading a
program into free cells, opening the game, and one turn of a live warrior. A fifth kind, concluding a game that has no
live warrior, is listed because a step could make it. A run is many turns, a random loading some bookkeeping and then a
loading. What a move preserves is therefore preserved by every sequence of requests.

- `takeTurn_eq`, `conclude_eq`: a turn, spelled out field by field: one warrior is replaced by what its instruction
  made of it (`executed`), everybody else stays.
- `step_cases`, `perform_cases`: all that a step and a request can come to.
- `replay_moves`: every sequence of requests is a sequence of moves.
- `Moves.preserves`, `after_preserves`: an invariant of moves is an invariant of requests; so is one that also speaks of
  the log, and is kept by draws, loadings, openings and steps.
- `after_length`: there is one warrior for every request that loaded a program.
-/
import Mathlib.Logic.Relation
import CoreWar.Battle.Request

namespace CoreWar

/-- whether the request, answered so, has loaded a program -/
def Request.loads : Request → Reply → Bool
  | .load .., .loadedAt _ => true
  | .loadAt .., .done => true
  | _, _ => false

@[simp] theorem Warrior.next_id (w : Warrior) : w.next.2.id = w.id := rfl

@[simp] theorem Effect.onWarrior_id (w : Warrior) (effect : Effect) : (effect.onWarrior w).id = w.id := by
  cases effect <;> rfl

namespace Battle

variable {G : Type}

theorem ofRules_ok {rules : Rules} {g : G} {b : Battle G} (h : ofRules rules g = .ok b) :
    0 < rules.coreSize ∧ b = { rules, core := .blank rules.coreSize, generator := g } := by
  unfold ofRules at h
  split at h
  · cases h
  · cases h
    exact ⟨by omega, rfl⟩

/-! ## A turn, field by field -/

/-- what the warrior `w` becomes by executing one instruction now -/
def executed (b : Battle G) (w : Warrior) : Warrior :=
  match b.core.effect b.rules w.next.2 w.next.1 with
  | .ok effect => effect.onWarrior w.next.2
  | .error _ => w.next.2.kill

/-- what the core becomes when `w` executes one instruction now -/
def coreAfter (b : Battle G) (w : Warrior) : Core :=
  match b.core.effect b.rules w.next.2 w.next.1 with
  | .ok effect => effect.onCore b.core
  | .error _ => b.core

/-- a turn replaces one warrior, counts a step and passes the turn on; it appends to faults and log -/
theorem takeTurn_eq (b : Battle G) (w : Warrior) (i : Nat) :
    ∃ (faults : List FaultRecord) (log : Array Event), b.takeTurn w i =
      { b with
        core := b.coreAfter w
        warriors := b.warriors.set i (b.executed w)
        turn := some ((i + 1) % b.warriors.length)
        steps := b.steps + 1
        faults := b.faults ++ faults
        log := log } := by
  simp only [takeTurn, execute, executed, coreAfter]
  cases h : b.core.effect b.rules w.next.2 w.next.1 with
  | ok effect => exact ⟨[], _, by simp only [List.append_nil]; rfl⟩
  | error fault => exact ⟨[_], _, rfl⟩

/-- an instruction leaves the core, or stores one cell -/
theorem coreAfter_cases (b : Battle G) (w : Warrior) :
    b.coreAfter w = b.core ∨ ∃ address c, b.core.effect b.rules w.next.2 w.next.1 = .ok (.store address c) ∧
      b.coreAfter w = b.core.write address.toInt c := by
  unfold coreAfter
  cases h : b.core.effect b.rules w.next.2 w.next.1 with
  | error fault => exact Or.inl rfl
  | ok effect =>
    cases effect with
    | store address c => exact Or.inr ⟨address, c, rfl, rfl⟩
    | idle => exact Or.inl rfl
    | die => exact Or.inl rfl
    | jump target => exact Or.inl rfl
    | split start => exact Or.inl rfl

theorem size_coreAfter (b : Battle G) (w : Warrior) : (b.coreAfter w).size = b.core.size := by
  rcases coreAfter_cases b w with hsame | ⟨address, c, -, hstore⟩
  · rw [hsame]
  · rw [hstore, Core.size_write]

/-- an instruction does not touch its warrior's id -/
@[simp] theorem executed_id (b : Battle G) (w : Warrior) : (b.executed w).id = w.id := by
  simp only [executed]
  split
  · simp
  · rfl

@[simp] theorem takeTurn_rules (b : Battle G) (w : Warrior) (i : Nat) : (b.takeTurn w i).rules = b.rules := by
  obtain ⟨faults, log, h⟩ := takeTurn_eq b w i
  rw [h]

@[simp] theorem takeTurn_core (b : Battle G) (w : Warrior) (i : Nat) : (b.takeTurn w i).core = b.coreAfter w := by
  obtain ⟨faults, log, h⟩ := takeTurn_eq b w i
  rw [h]

@[simp] theorem takeTurn_warriors (b : Battle G) (w : Warrior) (i : Nat) :
    (b.takeTurn w i).warriors = b.warriors.set i (b.executed w) := by
  obtain ⟨faults, log, h⟩ := takeTurn_eq b w i
  rw [h]

@[simp] theorem takeTurn_turn (b : Battle G) (w : Warrior) (i : Nat) :
    (b.takeTurn w i).turn = some ((i + 1) % b.warriors.length) := by
  obtain ⟨faults, log, h⟩ := takeTurn_eq b w i
  rw [h]

@[simp] theorem takeTurn_steps (b : Battle G) (w : Warrior) (i : Nat) : (b.takeTurn w i).steps = b.steps + 1 := by
  obtain ⟨faults, log, h⟩ := takeTurn_eq b w i
  rw [h]

@[simp] theorem takeTurn_concluded (b : Battle G) (w : Warrior) (i : Nat) :
    (b.takeTurn w i).concluded = b.concluded := by
  obtain ⟨faults, log, h⟩ := takeTurn_eq b w i
  rw [h]

@[simp] theorem takeTurn_generator (b : Battle G) (w : Warrior) (i : Nat) :
    (b.takeTurn w i).generator = b.generator := by
  obtain ⟨faults, log, h⟩ := takeTurn_eq b w i
  rw [h]

/-- the outcome is read off the warriors alone -/
theorem outcome_congr {b b' : Battle G} (h : b.warriors = b'.warriors) : b.outcome = b'.outcome := by
  unfold outcome
  rw [h]

/-- concluding marks the game as concluded unless it is running, and writes to the log -/
theorem conclude_eq (b : Battle G) : ∃ log : Array Event, b.conclude =
    (decide (b.outcome = .running), { b with concluded := b.concluded || decide (b.outcome ≠ .running), log }) := by
  unfold conclude
  cases h : b.outcome with
  | running => exact ⟨b.log, by simp⟩
  | draw => exact ⟨_, by simp [emit]; rfl⟩
  | winner id => exact ⟨_, by simp [emit]; rfl⟩

theorem conclude_fst (b : Battle G) : b.conclude.1 = true ↔ b.outcome = .running := by
  obtain ⟨log, h⟩ := conclude_eq b
  simp [h]

@[simp] theorem conclude_rules (b : Battle G) : b.conclude.2.rules = b.rules := by
  obtain ⟨log, h⟩ := conclude_eq b
  rw [h]

@[simp] theorem conclude_core (b : Battle G) : b.conclude.2.core = b.core := by
  obtain ⟨log, h⟩ := conclude_eq b
  rw [h]

@[simp] theorem conclude_warriors (b : Battle G) : b.conclude.2.warriors = b.warriors := by
  obtain ⟨log, h⟩ := conclude_eq b
  rw [h]

@[simp] theorem conclude_turn (b : Battle G) : b.conclude.2.turn = b.turn := by
  obtain ⟨log, h⟩ := conclude_eq b
  rw [h]

@[simp] theorem conclude_steps (b : Battle G) : b.conclude.2.steps = b.steps := by
  obtain ⟨log, h⟩ := conclude_eq b
  rw [h]

@[simp] theorem conclude_faults (b : Battle G) : b.conclude.2.faults = b.faults := by
  obtain ⟨log, h⟩ := conclude_eq b
  rw [h]

@[simp] theorem conclude_generator (b : Battle G) : b.conclude.2.generator = b.generator := by
  obtain ⟨log, h⟩ := conclude_eq b
  rw [h]

@[simp] theorem conclude_concluded (b : Battle G) : b.conclude.2.concluded = (b.concluded || !b.conclude.1) := by
  obtain ⟨log, h⟩ := conclude_eq b
  simp [h]

@[simp] theorem conclude_outcome (b : Battle G) : b.conclude.2.outcome = b.outcome :=
  outcome_congr (conclude_warriors b)

/-! ## Moves -/

/-- the elementary changes of a battle -/
inductive Move (b : Battle G) : Battle G → Prop where
  | noted (generator : G) (log : Array Event) : Move b { b with generator, log }
  | placed (id : ProgramId) (process : ProcessId) (code : List Cell) (start : Nat)
      (hload : b.checkLoadable id code = .ok ())
      (hfree : b.core.firstOccupied? b.rules.placement start code.length = none)
      (hstart : start < b.core.size) : Move b (b.place id process code start)
  | opened (hloaded : b.warriors ≠ []) : Move b { b with turn := some 0 }
  | turned {turn : Nat} {w : Warrior} {i : Nat} (hturn : b.turn = some turn) (hopen : b.concluded = false)
      (hnext : b.nextLive? turn = some (w, i)) : Move b (b.takeTurn w i).conclude.2
  | stalled {turn : Nat} (hturn : b.turn = some turn) (hopen : b.concluded = false)
      (hnext : b.nextLive? turn = none) : Move b { b with concluded := true }

/-- any number of moves -/
def Moves : Battle G → Battle G → Prop := Relation.ReflTransGen Move

theorem Moves.refl (b : Battle G) : Moves b b := Relation.ReflTransGen.refl

theorem Moves.trans {a b c : Battle G} (h₁ : Moves a b) (h₂ : Moves b c) : Moves a c :=
  Relation.ReflTransGen.trans h₁ h₂

theorem Move.moves {b b' : Battle G} (h : Move b b') : Moves b b' := Relation.ReflTransGen.single h

/-- what every move preserves, moves preserve -/
theorem Moves.preserves {P : Battle G → Prop} (hP : ∀ b b', Move b b' → P b → P b') {b b' : Battle G}
    (h : Moves b b') (hb : P b) : P b' := by
  induction h with
  | refl => exact hb
  | tail _ hmove ih => exact hP _ _ hmove ih

/-- rules stay as they are -/
theorem rules_of_moves {b b' : Battle G} (h : Moves b b') : b'.rules = b.rules := by
  apply h.preserves (P := fun c => c.rules = b.rules) _ rfl
  intro c c' hmove hc
  cases hmove with
  | noted generator log => exact hc
  | placed id process code start hload hfree hstart => exact hc
  | opened hloaded => exact hc
  | turned hturn hopen hnext => rw [conclude_rules, takeTurn_rules, hc]
  | stalled hturn hopen hnext => exact hc

/-- a code is loadable iff it has cells, and not more than the core, and its id is not taken -/
theorem checkLoadable_eq_ok_iff {b : Battle G} {id : ProgramId} {code : List Cell} :
    b.checkLoadable id code = .ok () ↔ code ≠ [] ∧ code.length ≤ b.core.size ∧ ∀ w ∈ b.warriors, w.id ≠ id := by
  unfold checkLoadable warrior?
  by_cases hcode : code = []
  · simp [hcode]
  · by_cases hlong : b.core.size < code.length
    · simp [hcode, hlong, Nat.not_le.2 hlong]
    · simp [hcode, hlong, Nat.not_lt.1 hlong]

theorem length_le_of_checkLoadable {b : Battle G} {id : ProgramId} {code : List Cell}
    (h : b.checkLoadable id code = .ok ()) : code.length ≤ b.core.size :=
  (checkLoadable_eq_ok_iff.1 h).2.1

/-- a code that is loadable has cells, so the core it fits in has cells too -/
theorem size_pos_of_checkLoadable {b : Battle G} {id : ProgramId} {code : List Cell}
    (h : b.checkLoadable id code = .ok ()) : 0 < b.core.size := by
  obtain ⟨hcode, hlength, -⟩ := checkLoadable_eq_ok_iff.1 h
  have hpos : 0 < code.length := List.length_pos_iff.2 hcode
  omega

theorem step_of_not_started {b : Battle G} (hturn : b.turn = none) : b.step = (false, b.emit .notStarted) := by
  rw [step, hturn]

theorem step_of_concluded {b : Battle G} {turn : Nat} (hturn : b.turn = some turn) (hover : b.concluded = true) :
    b.step = (false, b) := by
  simp only [step, hturn, hover, if_true]

theorem step_of_nobody {b : Battle G} {turn : Nat} (hturn : b.turn = some turn) (hopen : b.concluded = false)
    (hnext : b.nextLive? turn = none) : b.step = (false, { b with concluded := true }) := by
  simp [step, hturn, hopen, hnext]

theorem step_of_next {b : Battle G} {turn : Nat} {w : Warrior} {i : Nat} (hturn : b.turn = some turn)
    (hopen : b.concluded = false) (hnext : b.nextLive? turn = some (w, i)) :
    b.step = (b.takeTurn w i).conclude := by
  simp [step, hturn, hopen, hnext]

/-- all that a step can come to -/
theorem step_cases (b : Battle G) :
    (b.turn = none ∧ b.step = (false, b.emit .notStarted)) ∨
    (b.concluded = true ∧ b.step = (false, b)) ∨
    (∃ turn, b.turn = some turn ∧ b.concluded = false ∧ b.nextLive? turn = none ∧
      b.step = (false, { b with concluded := true })) ∨
    ∃ turn w i, b.turn = some turn ∧ b.concluded = false ∧ b.nextLive? turn = some (w, i) ∧
      b.step = (b.takeTurn w i).conclude := by
  cases hturn : b.turn with
  | none => exact Or.inl ⟨rfl, step_of_not_started hturn⟩
  | some turn =>
    right
    cases hopen : b.concluded with
    | true => exact Or.inl ⟨rfl, step_of_concluded hturn hopen⟩
    | false =>
      right
      cases hnext : b.nextLive? turn with
      | none => exact Or.inl ⟨turn, rfl, rfl, hnext, by rw [step_of_nobody hturn hopen hnext, hturn]⟩
      | some p => exact Or.inr ⟨turn, p.1, p.2, rfl, rfl, hnext, step_of_next hturn hopen hnext⟩

theorem step_moves (b : Battle G) : Moves b b.step.2 := by
  rcases step_cases b with ⟨-, h⟩ | ⟨-, h⟩ | ⟨turn, hturn, hopen, hnext, h⟩ | ⟨turn, w, i, hturn, hopen, hnext, h⟩
  · rw [h]; exact (Move.noted b.generator _).moves
  · rw [h]; exact Moves.refl b
  · rw [h]; exact (Move.stalled hturn hopen hnext).moves
  · rw [h]; exact (Move.turned hturn hopen hnext).moves

/-- what every step preserves, a run preserves -/
theorem run_preserves {P : Battle G → Prop} (hP : ∀ b, P b → P b.step.2) {b : Battle G} (hb : P b) (budget : Nat) :
    P (b.run budget).2 := by
  induction budget generalizing b with
  | zero => exact hb
  | succ budget ih =>
    have hstep := hP b hb
    simp only [run]
    split
    · rename_i b' h
      rw [h] at hstep
      exact ih hstep
    · rename_i b' h
      rw [h] at hstep
      exact hstep

theorem run_moves (b : Battle G) (budget : Nat) : Moves b (b.run budget).2 :=
  run_preserves (fun b' h => h.trans (step_moves b')) (Moves.refl b) budget

theorem step_length (b : Battle G) : b.step.2.warriors.length = b.warriors.length := by
  rcases step_cases b with ⟨-, h⟩ | ⟨-, h⟩ | ⟨turn, -, -, -, h⟩ | ⟨turn, w, i, -, -, -, h⟩
  · rw [h]; rfl
  · rw [h]
  · rw [h]
  · simp [h]

theorem run_length (b : Battle G) (budget : Nat) : (b.run budget).2.warriors.length = b.warriors.length :=
  run_preserves (P := fun b' => b'.warriors.length = b.warriors.length) (fun b' h => (step_length b').trans h) rfl
    budget

variable [WordSource G]

/-- a drawn start lies in the core and has free cells behind it -/
theorem drawStart_ok {b : Battle G} {length attempts start : Nat} {g g' : G}
    (h : b.drawStart length attempts g = (.ok start, g')) :
    b.core.firstOccupied? b.rules.placement start length = none ∧ start < b.core.size := by
  induction attempts generalizing g with
  | zero => simp [drawStart] at h
  | succ attempts ih =>
    simp only [drawStart] at h
    split at h
    · simp at h
    · rename_i n g₁ hdraw
      split at h
      · rename_i hfree
        simp only [Prod.mk.injEq, Except.ok.injEq] at h
        obtain ⟨rfl, -⟩ := h
        exact ⟨hfree, Random.drawWithin?_lt hdraw⟩
      · exact ih h

/-- a random loading is refused, which can cost draws, or puts the code into free cells -/
theorem load_cases (b : Battle G) (id : ProgramId) (process : ProcessId) (code : List Cell) :
    (∃ refusal generator, b.load id process code = (.error refusal, { b with generator })) ∨
    ∃ generator start, b.checkLoadable id code = .ok () ∧
      b.core.firstOccupied? b.rules.placement start code.length = none ∧ start < b.core.size ∧
      b.load id process code = (.ok start, { b with generator }.place id process code start) := by
  unfold load
  cases hload : b.checkLoadable id code with
  | error refusal => exact Or.inl ⟨refusal, b.generator, rfl⟩
  | ok _ =>
    rcases hdraw : b.drawStart code.length b.rules.maxPlacementAttempts b.generator with ⟨_ | start, generator⟩
    · exact Or.inl ⟨_, generator, rfl⟩
    · obtain ⟨hfree, hstart⟩ := drawStart_ok hdraw
      exact Or.inr ⟨generator, start, rfl, hfree, hstart, rfl⟩

omit [WordSource G] in
/-- a loading at an address is refused, or puts the code into free cells -/
theorem loadAt_cases (b : Battle G) (id : ProgramId) (process : ProcessId) (code : List Cell) (address : Int) :
    (∃ refusal, b.loadAt id process code address = .error refusal) ∨
    (b.checkLoadable id code = .ok () ∧
      b.core.firstOccupied? b.rules.placement (b.core.index address) code.length = none ∧
      b.core.index address < b.core.size ∧
      b.loadAt id process code address = .ok (b.place id process code (b.core.index address))) := by
  simp only [loadAt, bind, Except.bind]
  cases hload : b.checkLoadable id code with
  | error refusal => exact Or.inl ⟨refusal, rfl⟩
  | ok _ =>
    simp only
    cases hfree : b.core.firstOccupied? b.rules.placement (b.core.index address) code.length with
    | some place => exact Or.inl ⟨_, rfl⟩
    | none => exact Or.inr ⟨trivial, rfl, b.core.index_lt (size_pos_of_checkLoadable hload) address, rfl⟩

/-- all that a request can come to: a program is loaded, or the request is refused, opens the game, or plays it -/
theorem perform_cases (b : Battle G) (request : Request) :
    (request.loads (b.perform request).1 = true ∧ ∃ generator id process code start,
      b.checkLoadable id code = .ok () ∧ b.core.firstOccupied? b.rules.placement start code.length = none ∧
      start < b.core.size ∧ (b.perform request).2 = { b with generator }.place id process code start) ∨
    (request.loads (b.perform request).1 = false ∧
      ((∃ generator, (b.perform request).2 = { b with generator }) ∨
        (request = .start ∧ b.warriors ≠ [] ∧ (b.perform request).2 = { b with turn := some 0 }) ∨
        (request = .step ∧ (b.perform request).2 = b.step.2) ∨
        ∃ budget, request = .run budget ∧ (b.perform request).2 = (b.run budget).2)) := by
  cases request with
  | load id process code =>
    rcases load_cases b id process code with ⟨refusal, generator, h⟩ | ⟨generator, start, hload, hfree, hstart, h⟩
    · right
      simp only [perform, h]
      exact ⟨rfl, Or.inl ⟨generator, rfl⟩⟩
    · left
      simp only [perform, h]
      exact ⟨rfl, generator, id, process, code, start, hload, hfree, hstart, rfl⟩
  | loadAt id process code address =>
    rcases loadAt_cases b id process code address with ⟨refusal, h⟩ | ⟨hload, hfree, hstart, h⟩
    · right
      simp only [perform, h]
      exact ⟨rfl, Or.inl ⟨b.generator, rfl⟩⟩
    · left
      simp only [perform, h]
      exact ⟨rfl, b.generator, id, process, code, _, hload, hfree, hstart, rfl⟩
  | start =>
    right
    cases hw : b.warriors.isEmpty with
    | true =>
      simp only [perform, start, hw, if_true]
      exact ⟨rfl, Or.inl ⟨b.generator, rfl⟩⟩
    | false =>
      simp only [perform, start, hw, Bool.false_eq_true, if_false]
      exact ⟨rfl, Or.inr (Or.inl ⟨trivial, by simpa using hw, trivial⟩)⟩
  | step => exact Or.inr ⟨rfl, Or.inr (Or.inr (Or.inl ⟨rfl, rfl⟩))⟩
  | run budget => exact Or.inr ⟨rfl, Or.inr (Or.inr (Or.inr ⟨budget, rfl, rfl⟩))⟩

theorem perform_moves (b : Battle G) (request : Request) : Moves b (b.perform request).2 := by
  rcases perform_cases b request with ⟨-, generator, id, process, code, start, hload, hfree, hstart, h⟩ |
    ⟨-, ⟨generator, h⟩ | ⟨-, hloaded, h⟩ | ⟨-, h⟩ | ⟨budget, -, h⟩⟩
  · have hnoted : Moves b { b with generator } := (Move.noted generator b.log).moves
    rw [h]
    exact hnoted.trans (Move.placed (b := { b with generator }) id process code start hload hfree hstart).moves
  · rw [h]; exact (Move.noted generator b.log).moves
  · rw [h]; exact (Move.opened hloaded).moves
  · rw [h]; exact step_moves b
  · rw [h]; exact run_moves b budget

/-- the battle after a sequence of requests -/
def after (b : Battle G) (requests : List Request) : Battle G := (b.replay requests).2

@[simp] theorem after_cons (b : Battle G) (request : Request) (rest : List Request) :
    b.after (request :: rest) = (b.perform request).2.after rest := rfl

theorem replay_append (b : Battle G) (first rest : List Request) :
    b.replay (first ++ rest) =
      ((b.replay first).1 ++ ((b.after first).replay rest).1, ((b.after first).replay rest).2) := by
  induction first generalizing b with
  | nil => rfl
  | cons request first ih =>
    have hlater := ih (b.perform request).2
    simp only [List.cons_append, replay, hlater, after_cons]

theorem after_append (b : Battle G) (first rest : List Request) :
    b.after (first ++ rest) = (b.after first).after rest := by
  rw [after, replay_append]
  rfl

/-- with somebody loaded, a start opens the game -/
theorem after_start {b : Battle G} (h : b.warriors ≠ []) : b.after [.start] = { b with turn := some 0 } := by
  have hloaded : b.warriors.isEmpty = false := by simpa using h
  simp [after, replay, perform, start, hloaded]

/-- **Requests are moves.** Every sequence of requests changes the battle by moves. -/
theorem replay_moves (b : Battle G) (requests : List Request) : Moves b (b.after requests) := by
  induction requests generalizing b with
  | nil => exact Moves.refl b
  | cons request rest ih => exact (perform_moves b request).trans (ih _)

/-- what draws, loadings, an opening and steps preserve, requests preserve -/
theorem after_preserves {P : Battle G → Prop} (hdrawn : ∀ b generator, P b → P { b with generator })
    (hplaced : ∀ b id process code start, b.checkLoadable id code = .ok () → P b → P (b.place id process code start))
    (hopened : ∀ b, b.warriors ≠ [] → P b → P { b with turn := some 0 }) (hstep : ∀ b, P b → P b.step.2) {b : Battle G}
    (hb : P b) (requests : List Request) : P (b.after requests) := by
  induction requests generalizing b with
  | nil => exact hb
  | cons request rest ih =>
    have hfirst : P (b.perform request).2 := by
      rcases perform_cases b request with ⟨-, generator, id, process, code, start, hload, -, -, h⟩ |
        ⟨-, ⟨generator, h⟩ | ⟨-, hloaded, h⟩ | ⟨-, h⟩ | ⟨budget, -, h⟩⟩
      · rw [h]
        exact hplaced _ id process code start hload (hdrawn b generator hb)
      · rw [h]; exact hdrawn b generator hb
      · rw [h]; exact hopened b hloaded hb
      · rw [h]; exact hstep b hb
      · rw [h]; exact run_preserves hstep hb budget
    exact ih hfirst

/-! ## Loadings -/

/-- how many requests of the sequence load a program -/
def loadings (b : Battle G) (requests : List Request) : Nat :=
  (requests.zip (b.replay requests).1).countP fun (request, reply) => request.loads reply

/-- a request appends a warrior if it loads a program, and otherwise leaves their number -/
theorem perform_length (b : Battle G) (request : Request) :
    (b.perform request).2.warriors.length =
      b.warriors.length + if request.loads (b.perform request).1 then 1 else 0 := by
  rcases perform_cases b request with ⟨hloads, generator, id, process, code, start, -, -, -, h⟩ | ⟨hloads, hplain⟩
  · simp [h, hloads, place]
  · rw [hloads]
    rcases hplain with ⟨generator, h⟩ | ⟨-, -, h⟩ | ⟨-, h⟩ | ⟨budget, -, h⟩
    · rw [h]; rfl
    · rw [h]; rfl
    · rw [h]; exact step_length b
    · rw [h]; exact run_length b budget

/-- the warriors of a battle are the programs loaded, one for each loading -/
theorem after_length (b : Battle G) (requests : List Request) :
    (b.after requests).warriors.length = b.warriors.length + b.loadings requests := by
  induction requests generalizing b with
  | nil => rfl
  | cons request rest ih =>
    have hfirst := perform_length b request
    rw [after_cons, ih, hfirst]
    simp only [loadings, replay, List.zip_cons_cons, List.countP_cons]
    omega

end Battle

end CoreWar
