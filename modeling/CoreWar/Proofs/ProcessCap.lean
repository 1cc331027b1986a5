/-
The cap of processes: with room for one process or none, splitting is as good as off.

Splitting can be switched off, and it can be left on with a cap that every program has reached when it is loaded. In
both cases SPL adds no process. But the switch is looked at before the operand is resolved, and the cap after it, so an
SPL whose operand has no mode does nothing in the one game and is a fault in the other. Until the first turn that
executes such an instruction the two games are one: a turn reads nothing else of the rules, and requests read only what
is common to both.

- `Core.Execution.capped`: with this exception, an instruction goes the same way in both games.
- `takeTurn_capped`, `step_capped`, `perform_capped`: so do turns, steps and requests.
- `Parting`: two lists of turns that are the same up to the first such turn; `turns_parting`: those of the two games.
- `cap_law`: the two games, for every sequence of requests, and what becomes of them in the turn in which they part.
-/
import CoreWar.Proofs.Frame

namespace CoreWar

/-- splitting is on, and a program with so many processes does not split any more -/
def Rules.capped (cap : Nat) (rules : Rules) : Rules := { rules with splitProcesses := true, maxProcesses := cap }

/-- the warrior is to execute an SPL of its own whose operand has no mode -/
def Core.Unresolved (core : Core) (w : Warrior) : Prop :=
  let c := core.read w.next.1.toInt
  c.ownerProgram = some w.id ∧ c.op = .spl ∧ c.a.mode = none

instance (core : Core) (w : Warrior) : Decidable (core.Unresolved w) :=
  inferInstanceAs (Decidable (_ ∧ _ ∧ _))

/-- the same battle with splitting on and capped -/
def Battle.capped {G : Type} (cap : Nat) (b : Battle G) : Battle G := { b with rules := b.rules.capped cap }

namespace Turn

variable {G : Type}

/-- the turn executes an SPL of the warrior's own whose operand has no mode -/
def Unresolved (t : Turn G) : Prop := ∃ w, t.before.warriors[t.place]? = some w ∧ t.before.core.Unresolved w

instance (t : Turn G) : Decidable t.Unresolved :=
  inferInstanceAs (Decidable (∃ w ∈ t.before.warriors[t.place]?, t.before.core.Unresolved w))

/-- the same turn with splitting on and capped -/
def capped (cap : Nat) (t : Turn G) : Turn G := ⟨t.place, t.before.capped cap, t.after.capped cap⟩

/-- the turn taken in the same battle with splitting on and capped -/
def retaken (cap : Nat) (t : Turn G) : Turn G := ⟨t.place, t.before.capped cap, (t.before.capped cap).step.2⟩

end Turn

namespace Core

variable {core : Core} {rules : Rules} {w : Warrior} {pointer : Int64} {cap : Nat}

/-- where the operand is no hindrance, an instruction goes the same way with splitting off and with a cap that is
reached -/
theorem Execution.capped {c : Cell} {result : Except Fault Effect} (h : Execution core rules w pointer c result)
    (hoff : rules.splitProcesses = false) (hcap : cap ≤ w.size)
    (hresolved : ¬ (c.ownerProgram = some w.id ∧ c.op = .spl ∧ c.a.mode = none)) :
    Execution core (rules.capped cap) w pointer c result := by
  cases h with
  | foreign howner => exact .foreign howner
  | modelessA howner hop hmode =>
    rcases hop with hop | hop | ⟨-, hon⟩
    · exact .modelessA howner (Or.inl hop) hmode
    · exact .modelessA howner (Or.inr (Or.inl hop)) hmode
    · exact absurd (hon.symm.trans hoff) (by decide)
  | modelessB howner hop ha hmode => exact .modelessB howner hop ha hmode
  | dat howner hop => exact .dat howner hop
  | jmp howner hop => exact .jmp howner hop
  | mov howner hop hsource htarget => exact .mov howner hop hsource htarget
  | add howner hop hsource htarget => exact .add howner hop hsource htarget
  | spl howner hop hon htarget hroom => exact absurd (hon.symm.trans hoff) (by decide)
  | splFull howner hop hon htarget hfull => exact absurd (hon.symm.trans hoff) (by decide)
  | splOff howner hop _ =>
    cases hmode : c.a.mode with
    | none => exact absurd ⟨howner, hop, hmode⟩ hresolved
    | some mode =>
      obtain ⟨target, htarget⟩ := core.resolve_eq_ok pointer .a hmode
      exact .splFull howner hop rfl htarget hcap
  | nop howner hop => exact .nop howner hop

theorem effect_capped (hoff : rules.splitProcesses = false) (hcap : cap ≤ 1) (hresolved : ¬ core.Unresolved w) :
    core.effect (rules.capped cap) w.next.2 w.next.1 = core.effect rules w.next.2 w.next.1 := by
  have hsize : cap ≤ w.next.2.size := Nat.le_trans hcap (Nat.zero_lt_of_lt w.next.2.rotation.last_lt_size)
  exact ((core.effect_execution rules w.next.2 w.next.1).capped hoff hsize hresolved).effect_eq

/-- where it is one, the switch comes before the operand, and the operand before the cap -/
theorem Unresolved.effect_eq (h : core.Unresolved w) (hoff : rules.splitProcesses = false) (cap : Nat) :
    core.effect rules w.next.2 w.next.1 = .ok .idle ∧
      core.effect (rules.capped cap) w.next.2 w.next.1 =
        .error (.missingMode (core.index w.next.1.toInt) .a) := by
  obtain ⟨howner, hop, hmode⟩ := h
  refine ⟨?_, ?_⟩
  · apply Execution.effect_eq
    exact .splOff howner hop hoff
  · apply Execution.effect_eq
    exact .modelessA howner (Or.inr (Or.inr ⟨hop, rfl⟩)) hmode

end Core

namespace Battle

variable {G : Type}

/-! ## Turns and steps -/

section

variable {b : Battle G} {cap : Nat}

theorem conclude_capped : (b.capped cap).conclude = (b.conclude.1, b.conclude.2.capped cap) := by
  have houtcome : (b.capped cap).outcome = b.outcome := outcome_congr rfl
  rw [conclude, conclude, houtcome]
  cases b.outcome <;> rfl

/-- who is next does not depend on the rules -/
theorem nextTurn?_capped : (b.capped cap).nextTurn? = b.nextTurn?.map (Turn.retaken cap) := by
  unfold nextTurn?
  have hturn : (b.capped cap).turn = b.turn := rfl
  have hconcluded : (b.capped cap).concluded = b.concluded := rfl
  rw [hturn, hconcluded]
  cases b.turn with
  | none => rfl
  | some turn =>
    cases b.concluded with
    | true => rfl
    | false =>
      have hnext : (b.capped cap).nextLive? turn = b.nextLive? turn := rfl
      simp only [hnext]
      cases b.nextLive? turn <;> rfl

variable (hoff : b.rules.splitProcesses = false) (hcap : cap ≤ 1)
include hoff hcap

theorem takeTurn_capped {w : Warrior} (i : Nat) (hresolved : ¬ b.core.Unresolved w) :
    (b.capped cap).takeTurn w i = (b.takeTurn w i).capped cap := by
  have heffect := Core.effect_capped hoff hcap hresolved
  simp only [takeTurn, execute, capped, heffect]
  cases b.core.effect b.rules w.next.2 w.next.1 <;> rfl

theorem step_capped (hresolved : ∀ t ∈ b.nextTurn?, ¬ t.Unresolved) :
    (b.capped cap).step = (b.step.1, b.step.2.capped cap) := by
  rcases step_cases b with ⟨hturn, hstep⟩ | ⟨hover, hstep⟩ | ⟨turn, hturn, hopen, hnext, hstep⟩ |
    ⟨turn, w, i, hturn, hopen, hnext, hstep⟩
  · rw [hstep, step_of_not_started (b := b.capped cap) hturn]
    rfl
  · cases hturn : b.turn with
    | none =>
      rw [step_of_not_started hturn, step_of_not_started (b := b.capped cap) hturn]
      rfl
    | some turn => rw [hstep, step_of_concluded (b := b.capped cap) hturn hover]
  · rw [hstep, step_of_nobody (b := b.capped cap) hturn hopen hnext]
    rfl
  · have hplain : ¬ b.core.Unresolved w := by
      intro hw
      apply hresolved ⟨i, b, b.step.2⟩ (nextTurn?_of_next hturn hopen hnext)
      exact ⟨w, (nextLive?_eq_some hnext).1, hw⟩
    rw [hstep, step_of_next (b := b.capped cap) hturn hopen hnext, takeTurn_capped hoff hcap i hplain, conclude_capped]

/-- a turn whose operand is no hindrance is the same turn -/
theorem retaken_eq {t : Turn G} (htaken : b.nextTurn? = some t) (hresolved : ¬ t.Unresolved) :
    t.retaken cap = t.capped cap := by
  obtain ⟨turn, w, -, -, -, hbefore, -, hafter⟩ := nextTurn?_eq_some htaken
  have hstep := step_capped hoff hcap (b := b) (by
    intro s hs
    obtain rfl : t = s := Option.some.inj (htaken.symm.trans hs)
    exact hresolved)
  rw [Turn.retaken, Turn.capped, hbefore, hafter, hstep]

end

/-! ## Where the two games part -/

/-- the turns of the two games: the same up to the first whose operand is a hindrance, which begins the same -/
inductive Parting (cap : Nat) : List (Turn G) → List (Turn G) → Prop where
  | nil : Parting cap [] []
  | together {t : Turn G} {ts ts' : List (Turn G)} (hresolved : ¬ t.Unresolved) (hrest : Parting cap ts ts') :
      Parting cap (t :: ts) (t.capped cap :: ts')
  | parts {t : Turn G} (ts ts' : List (Turn G)) (hunresolved : t.Unresolved) :
      Parting cap (t :: ts) (t.retaken cap :: ts')

namespace Parting

variable {cap : Nat} {ts ts' : List (Turn G)}

/-- it only matters what follows if the games have not parted before -/
theorem append {us us' : List (Turn G)} (h : Parting cap ts ts')
    (hrest : (∀ t ∈ ts, ¬ t.Unresolved) → Parting cap us us') : Parting cap (ts ++ us) (ts' ++ us') := by
  induction h with
  | nil => exact hrest fun t ht => absurd ht List.not_mem_nil
  | together hresolved _ ih =>
    apply together hresolved
    apply ih
    intro hall
    exact hrest (List.forall_mem_cons.2 ⟨hresolved, hall⟩)
  | parts _ _ hunresolved => exact parts _ _ hunresolved

theorem eq_map (h : Parting cap ts ts') (hresolved : ∀ t ∈ ts, ¬ t.Unresolved) : ts' = ts.map (Turn.capped cap) := by
  induction h with
  | nil => rfl
  | together _ _ ih => rw [List.map_cons, ih (List.forall_mem_cons.1 hresolved).2]
  | parts _ _ hunresolved => exact absurd hunresolved (hresolved _ List.mem_cons_self)

theorem split (h : Parting cap ts ts') {before rest : List (Turn G)} {t : Turn G} (hts : ts = before ++ t :: rest)
    (hresolved : ∀ s ∈ before, ¬ s.Unresolved) (hunresolved : t.Unresolved) :
    ∃ rest', ts' = before.map (Turn.capped cap) ++ t.retaken cap :: rest' := by
  induction h generalizing before with
  | nil => exact absurd hts.symm (List.append_ne_nil_of_right_ne_nil _ (List.cons_ne_nil t rest))
  | together hfirst _ ih =>
    cases before with
    | nil =>
      obtain ⟨rfl, -⟩ := List.cons.inj hts
      exact absurd hunresolved hfirst
    | cons s before =>
      obtain ⟨rfl, hrest⟩ := List.cons.inj hts
      obtain ⟨rest', hrest'⟩ := ih hrest (List.forall_mem_cons.1 hresolved).2
      exact ⟨rest', by rw [hrest', List.map_cons, List.cons_append]⟩
  | parts us us' hfirst =>
    cases before with
    | nil =>
      obtain ⟨rfl, -⟩ := List.cons.inj hts
      exact ⟨us', rfl⟩
    | cons s before =>
      obtain ⟨rfl, -⟩ := List.cons.inj hts
      exact absurd hfirst (hresolved _ List.mem_cons_self)

end Parting

/-! ## Runs and requests -/

/-- a run is a step and, if the game goes on, a run with one step less -/
theorem runTurns_succ (b : Battle G) (budget : Nat) :
    b.runTurns (budget + 1) = b.nextTurn?.toList ++ if b.step.1 then b.step.2.runTurns budget else [] := by
  rw [runTurns]
  rcases b.step with ⟨_ | _, next⟩
  · exact (List.append_nil _).symm
  · rfl

section

variable {b : Battle G} {cap : Nat} (hoff : b.rules.splitProcesses = false) (hcap : cap ≤ 1)
include hoff hcap

theorem nextTurn_parting : Parting cap b.nextTurn?.toList (b.capped cap).nextTurn?.toList := by
  rw [nextTurn?_capped]
  cases htaken : b.nextTurn? with
  | none => exact .nil
  | some t =>
    by_cases hunresolved : t.Unresolved
    · exact .parts [] [] hunresolved
    · rw [Option.map_some, retaken_eq hoff hcap htaken hunresolved]
      exact .together hunresolved .nil

theorem run_capped {budget : Nat} (hresolved : ∀ t ∈ b.runTurns budget, ¬ t.Unresolved) :
    (b.capped cap).run budget = ((b.run budget).1, (b.run budget).2.capped cap) := by
  induction budget generalizing b with
  | zero => exact congrArg (·, b.capped cap) (outcome_congr rfl)
  | succ budget ih =>
    rw [runTurns_succ, List.forall_mem_append] at hresolved
    obtain ⟨hfirst, hrest⟩ := hresolved
    have hnext : b.step.2.rules.splitProcesses = false := by rw [rules_of_moves (step_moves b), hoff]
    rw [run, run, step_capped hoff hcap fun t ht => hfirst t (Option.mem_toList.2 ht)]
    rcases hstep : b.step with ⟨_ | _, next⟩
    · exact congrArg (·, next.capped cap) (outcome_congr rfl)
    · rw [hstep] at hrest hnext
      exact ih hnext hrest

theorem run_parting (budget : Nat) : Parting cap (b.runTurns budget) ((b.capped cap).runTurns budget) := by
  induction budget generalizing b with
  | zero => exact .nil
  | succ budget ih =>
    have hnext : b.step.2.rules.splitProcesses = false := by rw [rules_of_moves (step_moves b), hoff]
    rw [runTurns_succ, runTurns_succ]
    apply (nextTurn_parting hoff hcap).append
    intro hresolved
    rw [step_capped hoff hcap fun t ht => hresolved t (Option.mem_toList.2 ht)]
    cases b.step.1 with
    | false => exact .nil
    | true => exact ih hnext

end

section

variable (b : Battle G) (cap : Nat)

theorem loadAt_capped (id : ProgramId) (process : ProcessId) (code : List Cell) (address : Int) :
    (b.capped cap).loadAt id process code address = (b.loadAt id process code address).map (Battle.capped cap) := by
  have hload : (b.capped cap).checkLoadable id code = b.checkLoadable id code := rfl
  rw [loadAt, loadAt, hload]
  simp only [bind, Except.bind, capped, Rules.capped]
  cases b.checkLoadable id code with
  | error refusal => rfl
  | ok _ =>
    simp only
    cases b.core.firstOccupied? b.rules.placement (b.core.index address) code.length <;> rfl

variable [WordSource G]

theorem drawStart_capped (length attempts : Nat) (g : G) :
    (b.capped cap).drawStart length attempts g = b.drawStart length attempts g := by
  induction attempts generalizing g with
  | zero => rfl
  | succ attempts ih =>
    have hcore : (b.capped cap).core = b.core := rfl
    have hplacement : (b.capped cap).rules.placement = b.rules.placement := rfl
    simp only [drawStart, hcore, hplacement, ih]

theorem load_capped (id : ProgramId) (process : ProcessId) (code : List Cell) :
    (b.capped cap).load id process code = ((b.load id process code).1, (b.load id process code).2.capped cap) := by
  have hload : (b.capped cap).checkLoadable id code = b.checkLoadable id code := rfl
  simp only [load, hload, drawStart_capped]
  cases b.checkLoadable id code with
  | error refusal => rfl
  | ok _ =>
    have hattempts : (b.capped cap).rules.maxPlacementAttempts = b.rules.maxPlacementAttempts := rfl
    have hgenerator : (b.capped cap).generator = b.generator := rfl
    simp only [hattempts, hgenerator]
    rcases b.drawStart code.length b.rules.maxPlacementAttempts b.generator with ⟨_ | start, generator⟩ <;> rfl

end

section

variable [WordSource G] {b : Battle G} {cap : Nat} (hoff : b.rules.splitProcesses = false) (hcap : cap ≤ 1)
include hoff hcap

theorem perform_capped {request : Request} (hresolved : ∀ t ∈ b.requestTurns request, ¬ t.Unresolved) :
    (b.capped cap).perform request = ((b.perform request).1, (b.perform request).2.capped cap) := by
  cases request with
  | load id process code =>
    simp only [perform, load_capped]
    rcases b.load id process code with ⟨_ | start, next⟩ <;> rfl
  | loadAt id process code address =>
    simp only [perform, loadAt_capped]
    cases b.loadAt id process code address <;> rfl
  | start =>
    have hwarriors : (b.capped cap).warriors = b.warriors := rfl
    simp only [perform, start, hwarriors]
    cases b.warriors.isEmpty <;> rfl
  | step =>
    have hstep := step_capped hoff hcap fun t ht => hresolved t (Option.mem_toList.2 ht)
    simp only [perform, hstep]
  | run budget =>
    have hrun := run_capped hoff hcap hresolved
    simp only [perform, hrun]

omit [WordSource G] in
theorem request_parting (request : Request) :
    Parting cap (b.requestTurns request) ((b.capped cap).requestTurns request) := by
  cases request with
  | load id process code => exact .nil
  | loadAt id process code address => exact .nil
  | start => exact .nil
  | step => exact nextTurn_parting hoff hcap
  | run budget => exact run_parting hoff hcap budget

theorem turns_parting (requests : List Request) :
    Parting cap (b.turns requests) ((b.capped cap).turns requests) := by
  induction requests generalizing b with
  | nil => exact .nil
  | cons request rest ih =>
    apply (request_parting hoff hcap request).append
    intro hresolved
    rw [perform_capped hoff hcap hresolved]
    apply ih
    rw [rules_of_moves (perform_moves b request), hoff]

theorem replay_capped {requests : List Request} (hresolved : ∀ t ∈ b.turns requests, ¬ t.Unresolved) :
    (b.capped cap).replay requests = ((b.replay requests).1, (b.after requests).capped cap) := by
  induction requests generalizing b with
  | nil => rfl
  | cons request rest ih =>
    obtain ⟨hfirst, hlater⟩ := List.forall_mem_append.1 hresolved
    have hnext : (b.perform request).2.rules.splitProcesses = false := by
      rw [rules_of_moves (perform_moves b request), hoff]
    have hperform := perform_capped hoff hcap hfirst
    have hrest := ih hnext hlater
    simp only [replay, hperform, hrest, after_cons]

end

/-! ## Main result -/

/-- the turn in which the two games part: it does nothing in the one, and is a fault in the other -/
theorem parting_turn {t : Turn G} (htaken : t.before.nextTurn? = some t)
    (hoff : t.before.rules.splitProcesses = false) (cap : Nat) (hunresolved : t.Unresolved) :
    ∃ w, t.before.warriors[t.place]? = some w ∧ w.alive = true ∧
      t.after.core = t.before.core ∧ (t.retaken cap).after.core = t.before.core ∧
      t.after.warriors = t.before.warriors.set t.place w.next.2 ∧
      (t.retaken cap).after.warriors = t.before.warriors.set t.place w.next.2.kill ∧
      t.after.faults = t.before.faults ∧
      (t.retaken cap).after.faults = t.before.faults ++
        [⟨t.before.steps + 1, w.id, .missingMode (t.before.core.index w.next.1.toInt) .a⟩] := by
  obtain ⟨turn, w, hturn, hopen, hnext, -, hstep, hafter⟩ := nextTurn?_eq_some htaken
  obtain ⟨hw, halive, -⟩ := nextLive?_eq_some hnext
  obtain ⟨v, hv, hmodeless⟩ := hunresolved
  obtain rfl : w = v := Option.some.inj (hw.symm.trans hv)
  obtain ⟨hidle, hfault⟩ := hmodeless.effect_eq hoff cap
  have hretaken : (t.retaken cap).after = ((t.before.capped cap).takeTurn w t.place).conclude.2 := by
    rw [Turn.retaken, step_of_next (b := t.before.capped cap) hturn hopen hnext]
  obtain ⟨hcore, hexecuted, hfaults⟩ := takeTurn_fault (b := t.before.capped cap) (i := t.place) hfault
  refine ⟨w, hw, halive, ?_, ?_, ?_, ?_, ?_, ?_⟩
  · rw [hafter, hstep, conclude_core, takeTurn_core, coreAfter, hidle]
    rfl
  · rw [hretaken, conclude_core, takeTurn_core, hcore]
    rfl
  · rw [hafter, hstep, conclude_warriors, takeTurn_warriors, executed, hidle]
    rfl
  · rw [hretaken, conclude_warriors, takeTurn_warriors, hexecuted]
    rfl
  · rw [hafter, hstep, conclude_faults, takeTurn_ok hidle]
  · rw [hretaken, conclude_faults, hfaults]
    rfl

/-- **The cap of processes.** Take two new battles with the same generator, the one under rules with splitting off, the
other under the same rules but with splitting on and capped at one process or none, and any sequence of requests.
- If no turn executes an SPL of the warrior's own whose operand has no mode, then both give the same replies, take the
  same turns and come to the same state: core, warriors, faults, steps, log and whatever else is not the rules.
- Otherwise let `t` be the first turn that does. Up to and before it the turns and the states are the same. In the one
  game it does nothing but move the process on, as NOP; in the other it kills the warrior, and the fault is that
  operand A has no mode. -/
theorem cap_law [WordSource G] {rules : Rules} {g : G} {b₀ : Battle G} (h₀ : ofRules rules g = .ok b₀)
    (hoff : rules.splitProcesses = false) {cap : Nat} (hcap : cap ≤ 1) (requests : List Request) :
    ofRules (rules.capped cap) g = .ok (b₀.capped cap) ∧
    ((∀ t ∈ b₀.turns requests, ¬ t.Unresolved) →
      (b₀.capped cap).replay requests = ((b₀.replay requests).1, (b₀.after requests).capped cap) ∧
      (b₀.capped cap).turns requests = (b₀.turns requests).map (Turn.capped cap)) ∧
    ∀ before t rest, b₀.turns requests = before ++ t :: rest → (∀ s ∈ before, ¬ s.Unresolved) → t.Unresolved →
      ∃ t' rest', (b₀.capped cap).turns requests = before.map (Turn.capped cap) ++ t' :: rest' ∧
        t'.place = t.place ∧ t'.before = t.before.capped cap ∧
        ∃ w, t.before.warriors[t.place]? = some w ∧ w.alive = true ∧
          t.after.core = t.before.core ∧ t'.after.core = t.before.core ∧
          t.after.warriors = t.before.warriors.set t.place w.next.2 ∧
          t'.after.warriors = t.before.warriors.set t.place w.next.2.kill ∧
          t.after.faults = t.before.faults ∧
          t'.after.faults = t.before.faults ++
            [⟨t.before.steps + 1, w.id, .missingMode (t.before.core.index w.next.1.toInt) .a⟩] := by
  obtain ⟨hsize, hnew⟩ := ofRules_ok h₀
  have hrules : b₀.rules = rules := by rw [hnew]
  have hoff₀ : b₀.rules.splitProcesses = false := by rw [hrules, hoff]
  have hparting := turns_parting hoff₀ hcap requests
  refine ⟨?_, ?_, ?_⟩
  · have hcells : (rules.capped cap).coreSize ≠ 0 := Nat.ne_of_gt hsize
    rw [hnew, ofRules, if_neg hcells]
    rfl
  · intro hresolved
    exact ⟨replay_capped hoff₀ hcap hresolved, hparting.eq_map hresolved⟩
  · intro before t rest hturns hresolved hunresolved
    obtain ⟨rest', hrest'⟩ := hparting.split hturns hresolved hunresolved
    have hmem : t ∈ b₀.turns requests := by
      rw [hturns]
      exact List.mem_append_right _ List.mem_cons_self
    obtain ⟨hmoves, htaken⟩ := mem_turns hmem
    have hoff' : t.before.rules.splitProcesses = false := by rw [rules_of_moves hmoves, hoff₀]
    exact ⟨t.retaken cap, rest', hrest', rfl, rfl, parting_turn htaken hoff' cap hunresolved⟩

/-- a core of eight cells, and splitting switched off -/
def splitless : Battle Random.Counter :=
  { rules := { coreSize := 8, splitProcesses := false }, core := .blank 8, generator := ⟨0, 1⟩ }

/-- the first SPL of the program has a mode, and the second has none: in their third turn the games part -/
theorem cap_law_modeless :
    let code : List Cell := [{ op := .spl, a := ⟨1, some .direct⟩ }, { op := .spl }]
    let requests : List Request := [.loadAt 0 0 code (-1), .loadAt 1 0 [Cell.jmp 0] 4, .start, .run 2]
    ofRules splitless.rules splitless.generator = .ok splitless ∧ splitless.rules.splitProcesses = false ∧
      (splitless.capped 1).replay requests = ((splitless.replay requests).1, (splitless.after requests).capped 1) ∧
      ∃ t' rest', (splitless.capped 1).turns (requests ++ [.step]) =
          (splitless.turns requests).map (Turn.capped 1) ++ t' :: rest' ∧
        t'.after.faults = [⟨3, 0, .missingMode 0 .a⟩] := by
  intro code requests
  have hnew : ofRules splitless.rules splitless.generator = .ok splitless := rfl
  let t : Turn Random.Counter := ⟨0, splitless.after requests, (splitless.after requests).step.2⟩
  have hresolved : ∀ s ∈ splitless.turns requests, ¬ s.Unresolved := by decide +kernel
  have hunresolved : t.Unresolved := by decide +kernel
  have hturns : splitless.turns (requests ++ [.step]) = splitless.turns requests ++ [t] := by decide +kernel
  have hfault : ∀ w ∈ t.before.warriors[t.place]?, t.before.faults ++
      [⟨t.before.steps + 1, w.id, .missingMode (t.before.core.index w.next.1.toInt) .a⟩] =
        [⟨3, 0, .missingMode 0 .a⟩] := by
    decide +kernel
  obtain ⟨-, htogether, -⟩ := cap_law hnew rfl (Nat.le_refl 1) requests
  obtain ⟨-, -, hparts⟩ := cap_law hnew rfl (Nat.le_refl 1) (requests ++ [.step])
  obtain ⟨t', rest', hturns', -, -, w, hw, -, -, -, -, -, -, hfaults⟩ := hparts _ t [] hturns hresolved hunresolved
  exact ⟨hnew, rfl, (htogether hresolved).1, t', rest', hturns', hfaults.trans (hfault w hw)⟩

end Battle

end CoreWar
