/-
Conclusion: when a game is over, and that nothing happens in it afterwards.

The flag `concluded` is hidden from the outcome, and warriors can be loaded before the start, in the middle of the game
and after its end. What ties the two together is the invariant `Standing`, kept by every move:
- all are alive until the first step;
- after it, and until the conclusion, two or more are;
- nobody is alive only if a lone warrior died by the first instruction of the game.

Results, for every sequence of requests to a new battle:
- `conclusion_law`: a step of a game that is going on always finds a live warrior and executes one instruction; it goes
  on iff two or more are alive afterwards, and is concluded otherwise. The outcome says who is alive. As long as nobody
  is loaded into a concluded game, concluded means that a step was made and the outcome is not `running`. A concluded
  game is frozen: only loadings change it, and they only add.
- `draw_law`: a draw is the death of a lone warrior by the first instruction of the game. A game into which two or more
  programs were loaded is no draw, whatever their code.
-/
import Mathlib.Data.List.Nodup
import CoreWar.Proofs.Moves
import CoreWar.Proofs.Survivors
import CoreWar.Random.Counter

namespace CoreWar

namespace Battle

variable {G : Type}

/-! ## The invariant -/

/-- what holds of a battle however it came about -/
structure Standing (b : Battle G) : Prop where
  distinct : b.DistinctIds
  /-- a turn is the turn of somebody loaded -/
  turn_lt : ∀ turn, b.turn = some turn → turn < b.warriors.length
  unharmed : b.steps = 0 → b.concluded = false ∧ ∀ w ∈ b.warriors, w.alive = true
  contested : 0 < b.steps → b.concluded = false → 2 ≤ b.living.length
  /-- nobody is left only where nobody else ever was -/
  lone : b.warriors ≠ [] → b.living = [] → b.steps = 1 ∧ b.warriors.length = 1

theorem standing_ofRules {rules : Rules} {g : G} {b : Battle G} (h : ofRules rules g = .ok b) : Standing b := by
  obtain ⟨-, rfl⟩ := ofRules_ok h
  exact ⟨List.nodup_nil, by simp, fun _ => ⟨rfl, by simp⟩, by simp, by simp⟩

/-- a loadable program has an id of its own -/
theorem id_not_mem_of_checkLoadable {b : Battle G} {id : ProgramId} {code : List Cell}
    (h : b.checkLoadable id code = .ok ()) : id ∉ b.warriors.map (·.id) := by
  intro hmem
  obtain ⟨w, hw, hid⟩ := List.mem_map.1 hmem
  exact (checkLoadable_eq_ok_iff.1 h).2.2 w hw hid

theorem living_place (b : Battle G) (id : ProgramId) (process : ProcessId) (code : List Cell) (start : Nat) :
    (b.place id process code start).living =
      b.living ++ [.load id (code.map (Cell.ownedBy id process)) (Int64.ofNat start)] := by
  simp [living, place, Warrior.load]

/-- a turn takes at most its own warrior's life -/
theorem length_living_takeTurn {b : Battle G} {w : Warrior} {i : Nat} (hi : b.warriors[i]? = some w)
    (hw : w.alive = true) :
    (b.takeTurn w i).living.length + 1 = b.living.length + if (b.executed w).alive then 1 else 0 := by
  obtain ⟨hlt, hget⟩ := List.getElem?_eq_some_iff.1 hi
  have hpos : 0 < b.warriors.countP (·.alive) := List.countP_pos_iff.2 ⟨w, List.mem_of_getElem? hi, hw⟩
  rw [length_living, length_living, takeTurn_warriors, List.countP_set hlt, hget, if_pos hw]
  omega

/-- a turn leaves the ids as they are -/
theorem ids_takeTurn {b : Battle G} {w : Warrior} {i : Nat} (hi : b.warriors[i]? = some w) :
    (b.takeTurn w i).warriors.map (·.id) = b.warriors.map (·.id) := by
  have hid : (b.warriors.map (·.id))[i]? = some w.id := by simp [hi]
  obtain ⟨hlt, hget⟩ := List.getElem?_eq_some_iff.1 hid
  rw [takeTurn_warriors, List.map_set, executed_id, ← hget, List.set_getElem_self]

theorem ids_turned {b : Battle G} {w : Warrior} {i : Nat} (hi : b.warriors[i]? = some w) :
    (b.takeTurn w i).conclude.2.warriors.map (·.id) = b.warriors.map (·.id) := by
  rw [conclude_warriors, ids_takeTurn hi]

theorem placed_standing {b : Battle G} (h : Standing b) {id : ProgramId} {process : ProcessId} {code : List Cell}
    {start : Nat} (hload : b.checkLoadable id code = .ok ()) : Standing (b.place id process code start) where
  distinct := by
    have hid := id_not_mem_of_checkLoadable hload
    have hold : (b.warriors.map (·.id)).Nodup := h.distinct
    simp only [DistinctIds, place, List.map_append, List.map_singleton]
    refine List.nodup_append.2 ⟨hold, List.nodup_singleton _, ?_⟩
    intro a ha c hc heq
    rw [heq, List.mem_singleton.1 hc] at ha
    exact hid ha
  turn_lt := by
    intro turn hturn
    have hlt := h.turn_lt turn hturn
    simp only [place, List.length_append, List.length_singleton]
    omega
  unharmed := by
    intro hsteps
    obtain ⟨hopen, halive⟩ := h.unharmed hsteps
    refine ⟨hopen, ?_⟩
    intro w hw
    simp only [place, List.mem_append, List.mem_singleton] at hw
    rcases hw with hw | rfl
    · exact halive w hw
    · rfl
  contested := by
    intro hsteps hopen
    have htwo := h.contested hsteps hopen
    rw [living_place, List.length_append]
    omega
  lone := by
    intro _ hnone
    simp [living_place] at hnone

theorem turned_standing {b : Battle G} (h : Standing b) {turn i : Nat} {w : Warrior} (hopen : b.concluded = false)
    (hnext : b.nextLive? turn = some (w, i)) : Standing (b.takeTurn w i).conclude.2 := by
  obtain ⟨hi, hw, -⟩ := nextLive?_eq_some hnext
  obtain ⟨hlt, hget⟩ := List.getElem?_eq_some_iff.1 hi
  have hcount := length_living_takeTurn hi hw
  have hliving : (b.takeTurn w i).conclude.2.living = (b.takeTurn w i).living := by simp [living]
  refine ⟨?_, ?_, ?_, ?_, ?_⟩
  · simp only [DistinctIds, conclude_warriors, ids_takeTurn hi]
    exact h.distinct
  · intro t ht
    simp only [conclude_turn, takeTurn_turn, Option.some.injEq] at ht
    simp only [conclude_warriors, takeTurn_warriors, List.length_set, ← ht]
    exact Nat.mod_lt _ (by omega)
  · intro hsteps
    simp at hsteps
  · intro _ hgoing
    simp only [conclude_concluded, takeTurn_concluded, hopen, Bool.false_or, Bool.not_eq_false',
      conclude_fst] at hgoing
    rw [hliving]
    rcases (outcome_eq_running_iff _).1 hgoing with hempty | htwo
    · rw [takeTurn_warriors] at hempty
      have := congrArg List.length hempty
      simp at this
      simp [this] at hlt
    · exact htwo
  · intro _ hnone
    -- only the warrior whose turn it was was alive, so it was alone from the start
    rw [hliving] at hnone
    rw [hnone, List.length_nil] at hcount
    have hone : b.living.length ≤ 1 := by omega
    have hsteps : b.steps = 0 := by
      by_contra hne
      have := h.contested (Nat.pos_of_ne_zero hne) hopen
      omega
    have hall : b.living = b.warriors := List.filter_eq_self.2 (h.unharmed hsteps).2
    rw [hall] at hone
    simp only [conclude_steps, takeTurn_steps, conclude_warriors, takeTurn_warriors, List.length_set]
    omega

/-- somebody is alive in a game that is opened and not concluded -/
theorem Standing.living_ne_nil {b : Battle G} (h : Standing b) {turn : Nat} (hturn : b.turn = some turn)
    (hopen : b.concluded = false) : b.living ≠ [] := by
  intro hnone
  have hlt := h.turn_lt turn hturn
  have hloaded : b.warriors ≠ [] := by
    intro hempty
    simp [hempty] at hlt
  obtain ⟨hsteps, -⟩ := h.lone hloaded hnone
  have htwo := h.contested (by omega) hopen
  simp [hnone] at htwo

theorem move_standing {b b' : Battle G} (hmove : Move b b') (h : Standing b) : Standing b' := by
  cases hmove with
  | noted generator log => exact ⟨h.distinct, h.turn_lt, h.unharmed, h.contested, h.lone⟩
  | placed id process code start hload hfree hstart => exact placed_standing h hload
  | opened hloaded =>
    refine ⟨h.distinct, ?_, h.unharmed, h.contested, h.lone⟩
    intro turn hturn
    simp only [Option.some.injEq] at hturn
    subst hturn
    exact List.length_pos_iff.2 hloaded
  | turned hturn hopen hnext => exact turned_standing h hopen hnext
  | stalled hturn hopen hnext => exact absurd (nextLive?_eq_none_iff.1 hnext) (h.living_ne_nil hturn hopen)

theorem moves_standing {b b' : Battle G} (hmoves : Moves b b') (h : Standing b) : Standing b' :=
  hmoves.preserves (P := Standing) (fun _ _ => move_standing) h

/-! ## A step of a game that is going on -/

/-- a step of a game that is opened and not concluded is a turn of a live warrior -/
theorem Standing.step_eq {b : Battle G} (h : Standing b) (hstarted : b.isStarted = true) (hopen : b.concluded = false) :
    ∃ turn w i, b.turn = some turn ∧ b.nextLive? turn = some (w, i) ∧ b.step = (b.takeTurn w i).conclude := by
  rcases step_cases b with ⟨hturn, -⟩ | ⟨hover, -⟩ | ⟨turn, hturn, -, hnext, -⟩ | ⟨turn, w, i, hturn, -, hnext, hstep⟩
  · simp [isStarted, hturn] at hstarted
  · simp [hopen] at hover
  · exact absurd (nextLive?_eq_none_iff.1 hnext) (h.living_ne_nil hturn hopen)
  · exact ⟨turn, w, i, hturn, hnext, hstep⟩

theorem Standing.steps_step {b : Battle G} (h : Standing b) (hstarted : b.isStarted = true)
    (hopen : b.concluded = false) : b.step.2.steps = b.steps + 1 := by
  obtain ⟨turn, w, i, -, -, hstep⟩ := h.step_eq hstarted hopen
  rw [hstep, conclude_steps, takeTurn_steps]

/-- the step goes on iff two or more are alive after it, and concludes the game otherwise -/
theorem Standing.step_going {b : Battle G} (h : Standing b) (hstarted : b.isStarted = true)
    (hopen : b.concluded = false) :
    (b.step.1 = true ↔ 2 ≤ b.step.2.aliveIds.length) ∧ b.step.2.concluded = !b.step.1 := by
  have hstanding : Standing b.step.2 := moves_standing (step_moves b) h
  obtain ⟨turn, w, i, hturn, hnext, hstep⟩ := h.step_eq hstarted hopen
  have hloaded : b.step.2.warriors ≠ [] := by
    have hlt := h.turn_lt turn hturn
    rw [← step_length b] at hlt
    exact List.ne_nil_of_length_pos (by omega)
  constructor
  · have hrunning : b.step.1 = true ↔ b.step.2.outcome = .running := by
      rw [hstep, conclude_fst, conclude_outcome]
    rw [hrunning, outcome_eq_running_iff, length_aliveIds hstanding.distinct]
    exact ⟨fun hor => hor.resolve_left hloaded, Or.inr⟩
  · rw [hstep, conclude_concluded, takeTurn_concluded, hopen, Bool.false_or]

/-! ## The outcome and the living -/

theorem Standing.winner_iff {b : Battle G} (h : Standing b) (id : ProgramId) :
    b.outcome = .winner id ↔ b.aliveIds = [id] := by
  have hperm := aliveIds_perm h.distinct
  rw [outcome_eq_winner_iff]
  constructor
  · intro hone
    rw [hone] at hperm
    exact List.perm_singleton.1 hperm
  · intro hone
    rw [hone] at hperm
    exact List.perm_singleton.1 hperm.symm

theorem Standing.draw_iff {b : Battle G} (h : Standing b) :
    b.outcome = .draw ↔ b.warriors ≠ [] ∧ b.aliveIds = [] := by
  have hlength := length_aliveIds h.distinct
  rw [outcome_eq_draw_iff, ← List.length_eq_zero_iff, ← List.length_eq_zero_iff (l := b.aliveIds), hlength]

theorem Standing.running_iff {b : Battle G} (h : Standing b) :
    b.outcome = .running ↔ b.warriors = [] ∨ 2 ≤ b.aliveIds.length := by
  rw [outcome_eq_running_iff, length_aliveIds h.distinct]

/-! ## Concluded games are decided -/

/-- a concluded game has an outcome -/
def Decided (b : Battle G) : Prop := b.concluded = true → b.outcome ≠ .running

theorem step_decided {b : Battle G} (h : Standing b) (hdecided : Decided b) : Decided b.step.2 := by
  rcases step_cases b with ⟨-, hstep⟩ | ⟨-, hstep⟩ | ⟨turn, hturn, hopen, hnext, -⟩ | ⟨turn, w, i, -, hopen, -, hstep⟩
  · rw [hstep]; exact hdecided
  · rw [hstep]; exact hdecided
  · exact absurd (nextLive?_eq_none_iff.1 hnext) (h.living_ne_nil hturn hopen)
  · intro hover
    rw [hstep, conclude_concluded, takeTurn_concluded, hopen, Bool.false_or, Bool.not_eq_true'] at hover
    rw [hstep, conclude_outcome]
    intro hrunning
    rw [(conclude_fst _).2 hrunning] at hover
    cases hover

/-- decided and contested as it is, a game is concluded iff a step was made and there is an outcome -/
theorem Standing.concluded_iff {b : Battle G} (h : Standing b) (hdecided : Decided b) :
    b.concluded = true ↔ 1 ≤ b.steps ∧ b.outcome ≠ .running := by
  constructor
  · intro hover
    refine ⟨?_, hdecided hover⟩
    by_contra hsteps
    have hopen := (h.unharmed (by omega)).1
    simp [hover] at hopen
  · intro ⟨hsteps, houtcome⟩
    by_contra hopen
    simp only [Bool.not_eq_true] at hopen
    exact houtcome ((outcome_eq_running_iff b).2 (Or.inr (h.contested hsteps hopen)))

/-! ## After the conclusion -/

/-- `b'` is `b`, a concluded game, but for warriors loaded since -/
structure Frozen (b b' : Battle G) : Prop where
  concluded : b'.concluded = true
  steps : b'.steps = b.steps
  faults : b'.faults = b.faults
  warriors : b.warriors <+: b'.warriors

theorem Frozen.refl {b : Battle G} (h : b.concluded = true) : Frozen b b := ⟨h, rfl, rfl, List.prefix_refl _⟩

theorem Frozen.trans {b b' b'' : Battle G} (h₁ : Frozen b b') (h₂ : Frozen b' b'') : Frozen b b'' :=
  ⟨h₂.concluded, h₂.steps.trans h₁.steps, h₂.faults.trans h₁.faults, h₁.warriors.trans h₂.warriors⟩

/-- in a concluded game a step is refused, and only the log can tell -/
theorem step_concluded {b : Battle G} (h : b.concluded = true) : ∃ log, b.step = (false, { b with log }) := by
  rcases step_cases b with ⟨-, hstep⟩ | ⟨-, hstep⟩ | ⟨turn, -, hopen, -⟩ | ⟨turn, w, i, -, hopen, -⟩
  · exact ⟨_, hstep⟩
  · exact ⟨b.log, hstep⟩
  · simp [h] at hopen
  · simp [h] at hopen

theorem run_concluded {b : Battle G} (h : b.concluded = true) (budget : Nat) :
    ∃ log, (b.run budget).2 = { b with log } := by
  cases budget with
  | zero => exact ⟨b.log, rfl⟩
  | succ budget =>
    obtain ⟨log, hstep⟩ := step_concluded h
    exact ⟨log, by simp [run, hstep]⟩

variable [WordSource G]

/-- a request to a concluded game adds a warrior if it loads one, and otherwise leaves the warriors and the core -/
theorem perform_concluded {b : Battle G} (h : b.concluded = true) (request : Request) :
    Frozen b (b.perform request).2 ∧ (request.loads (b.perform request).1 = false →
      (b.perform request).2.warriors = b.warriors ∧ (b.perform request).2.core = b.core) := by
  rcases perform_cases b request with ⟨hloads, generator, id, process, code, start, -, -, -, heq⟩ | ⟨-, hplain⟩
  · rw [heq, hloads]
    exact ⟨⟨h, rfl, rfl, List.prefix_append _ _⟩, by simp⟩
  · rcases hplain with ⟨generator, heq⟩ | ⟨-, -, heq⟩ | ⟨-, heq⟩ | ⟨budget, -, heq⟩
    · rw [heq]; exact ⟨⟨h, rfl, rfl, List.prefix_refl _⟩, fun _ => ⟨rfl, rfl⟩⟩
    · rw [heq]; exact ⟨⟨h, rfl, rfl, List.prefix_refl _⟩, fun _ => ⟨rfl, rfl⟩⟩
    · obtain ⟨log, hstep⟩ := step_concluded h
      rw [heq, hstep]
      exact ⟨⟨h, rfl, rfl, List.prefix_refl _⟩, fun _ => ⟨rfl, rfl⟩⟩
    · obtain ⟨log, hrun⟩ := run_concluded h budget
      rw [heq, hrun]
      exact ⟨⟨h, rfl, rfl, List.prefix_refl _⟩, fun _ => ⟨rfl, rfl⟩⟩

theorem after_concluded {b : Battle G} (h : b.concluded = true) (requests : List Request) :
    Frozen b (b.after requests) := by
  induction requests generalizing b with
  | nil => exact Frozen.refl h
  | cons request rest ih =>
    have hfirst := (perform_concluded h request).1
    exact hfirst.trans (ih hfirst.concluded)

/-! ## Late loadings -/

theorem perform_decided {b : Battle G} (h : Standing b) (hdecided : Decided b) (request : Request)
    (hlate : b.concluded = true → request.loads (b.perform request).1 = false) :
    Decided (b.perform request).2 := by
  cases hover : b.concluded with
  | true =>
    intro _
    rw [outcome_congr ((perform_concluded hover request).2 (hlate hover)).1]
    exact hdecided hover
  | false =>
    rcases perform_cases b request with ⟨-, generator, id, process, code, start, -, -, -, heq⟩ |
      ⟨-, ⟨generator, heq⟩ | ⟨-, -, heq⟩ | ⟨-, heq⟩ | ⟨budget, -, heq⟩⟩
    · rw [heq]
      intro hplaced
      simp [place, hover] at hplaced
    · rw [heq]; exact hdecided
    · rw [heq]; exact hdecided
    · rw [heq]; exact step_decided h hdecided
    · have hboth := run_preserves (P := fun b' : Battle G => Standing b' ∧ Decided b')
        (fun b' hb' => ⟨moves_standing (step_moves b') hb'.1, step_decided hb'.1 hb'.2⟩) ⟨h, hdecided⟩ budget
      rw [heq]
      exact hboth.2

/-- no request of the sequence loads a program into a concluded game -/
def NoLateLoading (b : Battle G) (requests : List Request) : Prop :=
  ∀ before request, before ++ [request] <+: requests → (b.after before).concluded = true →
    request.loads ((b.after before).perform request).1 = false

theorem NoLateLoading.tail {b : Battle G} {request : Request} {rest : List Request}
    (h : NoLateLoading b (request :: rest)) : NoLateLoading (b.perform request).2 rest :=
  fun before r hprefix => h (request :: before) r (List.prefix_cons_inj request |>.2 hprefix)

theorem after_decided {b : Battle G} (h : Standing b) (hdecided : Decided b) (requests : List Request)
    (hlate : NoLateLoading b requests) : Decided (b.after requests) := by
  induction requests generalizing b with
  | nil => exact hdecided
  | cons request rest ih =>
    have hfirst : b.concluded = true → request.loads (b.perform request).1 = false :=
      hlate [] request (List.prefix_append [request] rest)
    exact ih (moves_standing (perform_moves b request) h) (perform_decided h hdecided request hfirst) hlate.tail

/-! ## Main results -/

theorem standing_after {rules : Rules} {g : G} {b₀ : Battle G} (h₀ : ofRules rules g = .ok b₀)
    (requests : List Request) : Standing (b₀.after requests) :=
  moves_standing (replay_moves b₀ requests) (standing_ofRules h₀)

/-- **Conclusion.** Let `b` be a new battle after any sequence of requests.
- If it is started and not concluded, a step finds a live warrior `w` and lets it execute one instruction; the step
  goes on iff two or more are alive afterwards, and otherwise concludes the game.
- The outcome says who is alive.
- If nobody was loaded into a concluded game, it is concluded iff a step was made and the outcome is not `running`.
- Once it is concluded, and whatever is requested then, a step is refused; steps, faults and the warriors there are
  stay; and only a loading changes the core. -/
theorem conclusion_law {rules : Rules} {g : G} {b₀ : Battle G} (h₀ : ofRules rules g = .ok b₀)
    (requests : List Request) :
    let b := b₀.after requests
    (b.isStarted = true → b.concluded = false →
      (∃ turn w i, b.turn = some turn ∧ b.nextLive? turn = some (w, i) ∧ b.warriors[i]? = some w ∧ w.alive = true ∧
        b.step = (b.takeTurn w i).conclude) ∧
      b.step.2.steps = b.steps + 1 ∧ (b.step.1 = true ↔ 2 ≤ b.step.2.aliveIds.length) ∧
      b.step.2.concluded = !b.step.1) ∧
    ((∀ id, b.outcome = .winner id ↔ b.aliveIds = [id]) ∧ (b.outcome = .draw ↔ b.warriors ≠ [] ∧ b.aliveIds = []) ∧
      (b.outcome = .running ↔ b.warriors = [] ∨ 2 ≤ b.aliveIds.length)) ∧
    (NoLateLoading b₀ requests → (b.concluded = true ↔ 1 ≤ b.steps ∧ b.outcome ≠ .running)) ∧
    (b.concluded = true → ∀ more, let c := b.after more
      c.step.1 = false ∧ c.steps = b.steps ∧ c.faults = b.faults ∧ b.warriors <+: c.warriors ∧
      ∀ request, request.loads (c.perform request).1 = false → (c.perform request).2.core = c.core) := by
  intro b
  have h : Standing b := standing_after h₀ requests
  refine ⟨?_, ⟨h.winner_iff, h.draw_iff, h.running_iff⟩, ?_, ?_⟩
  · intro hstarted hopen
    obtain ⟨turn, w, i, hturn, hnext, hstep⟩ := h.step_eq hstarted hopen
    obtain ⟨hi, hw, -⟩ := nextLive?_eq_some hnext
    refine ⟨⟨turn, w, i, hturn, hnext, hi, hw, hstep⟩, ?_, h.step_going hstarted hopen⟩
    rw [hstep, conclude_steps, takeTurn_steps]
  · intro hlate
    have hnew : Decided b₀ := by
      obtain ⟨-, rfl⟩ := ofRules_ok h₀
      intro hover
      cases hover
    exact h.concluded_iff (after_decided (standing_ofRules h₀) hnew requests hlate)
  · intro hover more
    have hfrozen := after_concluded hover more
    obtain ⟨log, hstep⟩ := step_concluded hfrozen.concluded
    exact ⟨by rw [hstep], hfrozen.steps, hfrozen.faults, hfrozen.warriors,
      fun request hloads => ((perform_concluded hfrozen.concluded request).2 hloads).2⟩

/-- a new battle in a core of two cells -/
def twoCells : Battle Random.Counter := { rules := { coreSize := 2 }, core := .blank 2, generator := ⟨0, 1⟩ }

/-- a bomb that is alone is killed by its first instruction; then a second one is loaded, and is not run -/
theorem conclusion_law_bombs :
    ofRules twoCells.rules twoCells.generator = .ok twoCells ∧
      (twoCells.after [.loadAt 0 0 [Cell.data] 0, .start, .step]).concluded = true ∧
      ((twoCells.after [.loadAt 0 0 [Cell.data] 0, .start, .step]).after [.loadAt 1 0 [Cell.data] 1]).step.1 = false :=
  have hnew : ofRules twoCells.rules twoCells.generator = .ok twoCells := rfl
  have hover : (twoCells.after [.loadAt 0 0 [Cell.data] 0, .start, .step]).concluded = true := by decide +kernel
  ⟨hnew, hover, ((conclusion_law hnew _).2.2.2 hover _).1⟩

/-- **Draws.** After any sequence of requests to a new battle: a draw means that one program was loaded, and that it
was killed by the only instruction executed, having been alive until then. With two or more programs loaded there is no
draw. -/
theorem draw_law {rules : Rules} {g : G} {b₀ : Battle G} (h₀ : ofRules rules g = .ok b₀) (requests : List Request) :
    let b := b₀.after requests
    (b.outcome = .draw → b₀.loadings requests = 1 ∧ b.steps = 1 ∧ (∃ w, b.warriors = [w] ∧ w.alive = false) ∧
      ∀ before, before <+: requests → (b₀.after before).steps = 0 → ∀ w ∈ (b₀.after before).warriors, w.alive = true) ∧
    (2 ≤ b₀.loadings requests → b.outcome ≠ .draw) := by
  intro b
  have h : Standing b := standing_after h₀ requests
  have hlength : b.warriors.length = b₀.loadings requests := by
    have hnew : b₀.warriors.length = 0 := by
      rw [(ofRules_ok h₀).2]
      rfl
    calc b.warriors.length = b₀.warriors.length + b₀.loadings requests := after_length b₀ requests
      _ = b₀.loadings requests := by rw [hnew, Nat.zero_add]
  have hdraw : b.outcome = .draw → b.steps = 1 ∧ b.warriors.length = 1 ∧ b.living = [] := by
    intro hout
    obtain ⟨hloaded, hnone⟩ := (outcome_eq_draw_iff b).1 hout
    obtain ⟨hsteps, hone⟩ := h.lone hloaded hnone
    exact ⟨hsteps, hone, hnone⟩
  constructor
  · intro hout
    obtain ⟨hsteps, hone, hnone⟩ := hdraw hout
    obtain ⟨w, hw⟩ := List.length_eq_one_iff.1 hone
    have hdead : w.alive = false := by
      have hall := List.filter_eq_nil_iff.1 hnone w (by rw [hw]; exact List.mem_singleton_self w)
      simpa using hall
    exact ⟨by omega, hsteps, ⟨w, hw, hdead⟩, fun before _ hnew => ((standing_after h₀ before).unharmed hnew).2⟩
  · intro htwo hout
    obtain ⟨-, hone, -⟩ := hdraw hout
    omega

/-- the bomb alone, and beside a program that jumps on the spot -/
theorem draw_law_bomb :
    ofRules twoCells.rules twoCells.generator = .ok twoCells ∧
      (twoCells.after [.loadAt 0 0 [Cell.data] 0, .start, .run 5]).steps = 1 ∧
      (twoCells.after [.loadAt 0 0 [Cell.data] 0, .loadAt 1 0 [Cell.jmp 0] 1, .start, .run 5]).outcome ≠ .draw :=
  have hnew : ofRules twoCells.rules twoCells.generator = .ok twoCells := rfl
  ⟨hnew, ((draw_law hnew _).1 (by decide +kernel)).2.1, (draw_law hnew _).2 (by decide +kernel)⟩

end Battle

end CoreWar
