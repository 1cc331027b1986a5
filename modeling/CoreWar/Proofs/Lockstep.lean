/-
Lockstep: battles that are alike stay alike.

What holds of instructions holds of turns, of runs and of loadings: whoever is next in one battle is next in the other,
loadings are refused for the same reasons, and games end after the same step. Two sequences of requests that are alike
are answered alike, whatever they do, and after every request the battles are alike again. Generators matter only where
places are drawn; the logs, which report raw pointers, are left out.

- `Battles`: what alike battles have in common.
- `Battles.takeTurn`, `Battles.step`, `Battles.run`: one turn, one step, a run.
- `Battles.loadAt`, `Battles.load`: loadings.
- `replay_alike`: sequences of requests, answer by answer.
-/
import CoreWar.Proofs.Draws
import CoreWar.Proofs.Likeness

namespace CoreWar

/-! ## Other names and places -/

def Refusal.map (rename : ProgramId → ProgramId) (move : Int → Int) : Refusal → Refusal
  | .emptyCore => .emptyCore
  | .noPrograms => .noPrograms
  | .emptyProgram => .emptyProgram
  | .programTooLarge length coreSize => .programTooLarge length coreSize
  | .duplicateProgram id => .duplicateProgram (rename id)
  | .occupied address => .occupied (move address)
  | .noPlacement attempts => .noPlacement attempts
  | .noDraw => .noDraw

def Outcome.map (rename : ProgramId → ProgramId) : Outcome → Outcome
  | .running => .running
  | .draw => .draw
  | .winner id => .winner (rename id)

def Reply.map (rename : ProgramId → ProgramId) (move : Int → Int) : Reply → Reply
  | .done => .done
  | .refused refusal => .refused (refusal.map rename move)
  | .loadedAt start => .loadedAt (move start).toNat
  | .goesOn flag => .goesOn flag
  | .ended outcome => .ended (outcome.map rename)

@[simp] theorem Outcome.map_eq_running_iff {rename : ProgramId → ProgramId} {outcome : Outcome} :
    outcome.map rename = .running ↔ outcome = .running := by
  cases outcome <;> simp [Outcome.map]

namespace Likeness

variable {size : Nat} (L : Likeness size) {G : Type}

/-- the battles are the same but for names and places; where the end of the core matters, it must be at the same place
in both -/
structure Battles (b b' : Battle G) : Prop where
  rules : b'.rules = b.rules
  placement : b.rules.placement = .wrapping ∨ L.shift = 0
  core : L.Cores b.core b'.core
  warriors : List.Forall₂ L.Warriors b.warriors b'.warriors
  turn : b'.turn = b.turn
  steps : b'.steps = b.steps
  concluded : b'.concluded = b.concluded
  faults : b'.faults = b.faults.map (FaultRecord.map L.rename L.move)
  generator : L.Draws → b'.generator = b.generator

/-- both loadings succeed, or are refused for the same reason -/
inductive Loads : Except Refusal (Battle G) → Except Refusal (Battle G) → Prop where
  | ok {b b' : Battle G} (h : L.Battles b b') : Loads (.ok b) (.ok b')
  | error (refusal : Refusal) : Loads (.error refusal) (.error (refusal.map L.rename L.move))

/-- the codes are alike once they are stamped -/
def Codes (id : ProgramId) (process process' : ProcessId) (code code' : List Cell) : Prop :=
  List.Forall₂ L.Cells (code.map (Cell.ownedBy id process)) (code'.map (Cell.ownedBy (L.rename id) process'))

/-- the same request, under other names and for other places -/
inductive Requests : Request → Request → Prop where
  | load {id : ProgramId} {process process' : ProcessId} {code code' : List Cell} (hdraws : L.Draws)
      (hcode : L.Codes id process process' code code') :
    Requests (.load id process code) (.load (L.rename id) process' code')
  | loadAt {id : ProgramId} {process process' : ProcessId} {code code' : List Cell} {address address' : Int}
      (hcode : L.Codes id process process' code code') (haddress : L.Addresses address address') :
    Requests (.loadAt id process code address) (.loadAt (L.rename id) process' code' address')
  | start : Requests .start .start
  | step : Requests .step .step
  | run (budget : Nat) : Requests (.run budget) (.run budget)

/-- what the requests add up and where they load may be added up and loaded -/
structure Admits [WordSource G] (b : Battle G) (requests : List Request) : Prop where
  turns : ∀ t ∈ b.turns requests, ∀ p ∈ t.sums, L.Fits p
  starts : ∀ l ∈ b.loaded requests, L.Starts l.start

variable {L}

theorem set_alike {α β : Type} {R : α → β → Prop} {xs : List α} {ys : List β} (h : List.Forall₂ R xs ys) (i : Nat)
    {x : α} {y : β} (hxy : R x y) : List.Forall₂ R (xs.set i x) (ys.set i y) := by
  induction h generalizing i with
  | nil => exact .nil
  | cons hfirst hrest ih =>
    cases i with
    | zero => exact .cons hxy hrest
    | succ i => exact .cons hfirst (ih i)

theorem map_eq_of_alike {α β γ : Type} {R : α → β → Prop} {xs : List α} {ys : List β} (h : List.Forall₂ R xs ys)
    {f : α → γ} {g : β → γ} (hfg : ∀ x y, R x y → g y = f x) : ys.map g = xs.map f := by
  induction h with
  | nil => rfl
  | cons hfirst _ ih => rw [List.map_cons, List.map_cons, hfg _ _ hfirst, ih]

theorem firstLive?_alike {ws ws' : List Warrior} (h : List.Forall₂ L.Warriors ws ws') (i : Nat) :
    Option.Rel (fun next next' : Warrior × Nat => L.Warriors next.1 next'.1 ∧ next'.2 = next.2)
      (Battle.firstLive? i ws) (Battle.firstLive? i ws') := by
  induction h generalizing i with
  | nil => exact .none
  | cons hw _ ih =>
    rw [Battle.firstLive?, Battle.firstLive?, hw.alive]
    split
    · exact .some ⟨hw, rfl⟩
    · exact ih (i + 1)

namespace Battles

variable {b b' : Battle G}

/-! ## Who is alive, and who is next -/

section

variable (h : L.Battles b b')
include h

theorem ids : b'.warriors.map (·.id) = (b.warriors.map (·.id)).map L.rename := by
  rw [List.map_map]
  exact map_eq_of_alike h.warriors fun _ _ hw => hw.id

theorem living : List.Forall₂ L.Warriors b.living b'.living := by
  apply List.rel_filter _ h.warriors
  intro w w' hw
  simp only [hw.alive]

theorem outcome : b'.outcome = b.outcome.map L.rename := by
  have hempty := isEmpty_alike h.warriors
  have hliving := h.living
  rw [Battle.outcome_eq, Battle.outcome_eq, hempty]
  generalize b.living = row, b'.living = row' at hliving
  cases hliving with
  | nil => cases b.warriors.isEmpty <;> rfl
  | cons hw hrest =>
    cases hrest with
    | nil => exact congrArg Outcome.winner hw.id
    | cons _ _ => rfl

theorem nextLive? (turn : Nat) :
    Option.Rel (fun next next' : Warrior × Nat => L.Warriors next.1 next'.1 ∧ next'.2 = next.2)
      (b.nextLive? turn) (b'.nextLive? turn) := by
  have hbehind := firstLive?_alike (List.forall₂_drop turn h.warriors) turn
  have hfront := firstLive?_alike h.warriors 0
  unfold Battle.nextLive?
  generalize Battle.firstLive? turn (b.warriors.drop turn) = next,
    Battle.firstLive? turn (b'.warriors.drop turn) = next' at hbehind
  cases hbehind with
  | none => exact hfront
  | some hnext => exact .some hnext

theorem conclude : b'.conclude.1 = b.conclude.1 ∧ L.Battles b.conclude.2 b'.conclude.2 := by
  have hflag : b'.conclude.1 = b.conclude.1 := by
    rw [Bool.eq_iff_iff, Battle.conclude_fst, Battle.conclude_fst, h.outcome, Outcome.map_eq_running_iff]
  refine ⟨hflag, ?_⟩
  constructor
  · simpa using h.rules
  · simpa using h.placement
  · simpa using h.core
  · simpa using h.warriors
  · simpa using h.turn
  · simpa using h.steps
  · rw [Battle.conclude_concluded, Battle.conclude_concluded, h.concluded, hflag]
  · simpa using h.faults
  · simpa using h.generator

/-! ## Turns -/

section

variable {w w' : Warrior} (hw : L.Warriors w w') (hfits : ∀ p ∈ b.sums w, L.Fits p)
  (hfits' : ∀ p ∈ b'.sums w', L.Fits p)
include hw hfits hfits'

omit h in
theorem next : L.Pointers w.next.1 w'.next.1 ∧ L.Warriors w.next.2 w'.next.2 :=
  hw.next (hfits _ List.mem_cons_self) (hfits' _ List.mem_cons_self)

theorem results :
    L.Results (b.core.effect b.rules w.next.2 w.next.1) (b'.core.effect b'.rules w'.next.2 w'.next.1) := by
  obtain ⟨hpointer, hnext⟩ := next hw hfits hfits'
  rw [h.rules]
  apply effect_results h.core hnext hpointer
  · exact fun p hp => hfits p (List.mem_cons_of_mem _ hp)
  · intro p hp
    rw [← h.rules] at hp
    exact hfits' p (List.mem_cons_of_mem _ hp)

theorem coreAfter : L.Cores (b.coreAfter w) (b'.coreAfter w') := by
  have hresults := h.results hw hfits hfits'
  unfold Battle.coreAfter
  generalize b.core.effect b.rules w.next.2 w.next.1 = result,
    b'.core.effect b'.rules w'.next.2 w'.next.1 = result' at hresults
  cases hresults with
  | ok heffect => exact h.core.onCore heffect
  | error fault => exact h.core

theorem executed : L.Warriors (b.executed w) (b'.executed w') := by
  have hnext := (next hw hfits hfits').2
  have hresults := h.results hw hfits hfits'
  unfold Battle.executed
  generalize b.core.effect b.rules w.next.2 w.next.1 = result,
    b'.core.effect b'.rules w'.next.2 w'.next.1 = result' at hresults
  cases hresults with
  | ok heffect => exact hnext.onWarrior heffect
  | error fault => exact hnext.kill

theorem takeTurn_faults (i : Nat) :
    (b'.takeTurn w' i).faults = (b.takeTurn w i).faults.map (FaultRecord.map L.rename L.move) := by
  have hresults := h.results hw hfits hfits'
  generalize heffect : b.core.effect b.rules w.next.2 w.next.1 = result at hresults
  generalize heffect' : b'.core.effect b'.rules w'.next.2 w'.next.1 = result' at hresults
  cases hresults with
  | ok _ => rw [Battle.takeTurn_ok heffect, Battle.takeTurn_ok heffect', h.faults]
  | error fault =>
    rw [(Battle.takeTurn_fault heffect).2.2, (Battle.takeTurn_fault heffect').2.2, List.map_append, h.faults, h.steps,
      hw.id]
    rfl

theorem takeTurn (i : Nat) : L.Battles (b.takeTurn w i) (b'.takeTurn w' i) := by
  have hwarriors := set_alike h.warriors i (h.executed hw hfits hfits')
  constructor
  · simpa using h.rules
  · simpa using h.placement
  · simpa using h.coreAfter hw hfits hfits'
  · simpa using hwarriors
  · rw [Battle.takeTurn_turn, Battle.takeTurn_turn, h.warriors.length_eq]
  · rw [Battle.takeTurn_steps, Battle.takeTurn_steps, h.steps]
  · simpa using h.concluded
  · exact h.takeTurn_faults hw hfits hfits' i
  · simpa using h.generator

end

/-- the log is left out -/
theorem emit (event event' : Event) : L.Battles (b.emit event) (b'.emit event') := { h with }

theorem withGenerator (g : G) : L.Battles { b with generator := g } { b' with generator := g } :=
  { h with generator := fun _ => rfl }

omit h in
/-- what holds of the sums of the next turn holds of those of the warrior who is next -/
theorem sums_of_next {turn : Nat} {w : Warrior} {i : Nat} (hturn : b.turn = some turn) (hopen : b.concluded = false)
    (hnext : b.nextLive? turn = some (w, i)) {P : Int64 × Int64 → Prop} (hP : ∀ t ∈ b.nextTurn?, ∀ p ∈ t.sums, P p) :
    ∀ p ∈ b.sums w, P p := by
  have hplace := (Battle.nextLive?_eq_some hnext).1
  have hsums := hP _ (Battle.nextTurn?_of_next hturn hopen hnext)
  simp only [Turn.sums, hplace] at hsums
  exact hsums

theorem step (hfits : ∀ t ∈ b.nextTurn?, ∀ p ∈ t.sums, L.Fits p) (hfits' : ∀ t ∈ b'.nextTurn?, ∀ p ∈ t.sums, L.Fits p) :
    b'.step.1 = b.step.1 ∧ L.Battles b.step.2 b'.step.2 := by
  cases hturn : b.turn with
  | none =>
    rw [Battle.step_of_not_started hturn, Battle.step_of_not_started (h.turn.trans hturn)]
    exact ⟨rfl, h.emit _ _⟩
  | some turn =>
    have hturn' := h.turn.trans hturn
    cases hover : b.concluded with
    | true =>
      rw [Battle.step_of_concluded hturn hover, Battle.step_of_concluded hturn' (h.concluded.trans hover)]
      exact ⟨rfl, h⟩
    | false =>
      have hover' := h.concluded.trans hover
      have hnexts := h.nextLive? turn
      generalize hnext : b.nextLive? turn = next at hnexts
      generalize hnext' : b'.nextLive? turn = next' at hnexts
      cases hnexts with
      | none =>
        rw [Battle.step_of_nobody hturn hover hnext, Battle.step_of_nobody hturn' hover' hnext']
        exact ⟨rfl, { h with concluded := rfl }⟩
      | @some next next' hnexts =>
        obtain ⟨w, i⟩ := next
        obtain ⟨w', i'⟩ := next'
        obtain ⟨hw, rfl : i' = i⟩ := hnexts
        have hsums := sums_of_next hturn hover hnext hfits
        have hsums' := sums_of_next hturn' hover' hnext' hfits'
        rw [Battle.step_of_next hturn hover hnext, Battle.step_of_next hturn' hover' hnext']
        exact (h.takeTurn hw hsums hsums' i').conclude

omit h in
theorem run (h : L.Battles b b') (budget : Nat) (hfits : ∀ t ∈ b.runTurns budget, ∀ p ∈ t.sums, L.Fits p)
    (hfits' : ∀ t ∈ b'.runTurns budget, ∀ p ∈ t.sums, L.Fits p) :
    (b'.run budget).1 = (b.run budget).1.map L.rename ∧ L.Battles (b.run budget).2 (b'.run budget).2 := by
  induction budget generalizing b b' with
  | zero => exact ⟨h.outcome, h⟩
  | succ budget ih =>
    obtain ⟨hflag, hnext⟩ := h.step (fun t ht => hfits t (Battle.mem_runTurns_of_next ht))
      (fun t ht => hfits' t (Battle.mem_runTurns_of_next ht))
    rw [Battle.run, Battle.run]
    rcases hstep : b.step with ⟨flag, next⟩
    rcases hstep' : b'.step with ⟨flag', next'⟩
    rw [hstep, hstep'] at hflag hnext
    obtain rfl : flag' = flag := hflag
    cases flag' with
    | false => exact ⟨hnext.outcome, hnext⟩
    | true =>
      exact ih hnext (fun t ht => hfits t (Battle.mem_runTurns_of_rest hstep ht))
        (fun t ht => hfits' t (Battle.mem_runTurns_of_rest hstep' ht))

/-! ## Loadings -/

section

variable {id : ProgramId} {process process' : ProcessId} {code code' : List Cell}
  (hcode : L.Codes id process process' code code')
include hcode

theorem checkLoadable :
    b'.checkLoadable (L.rename id) code' = (b.checkLoadable id code).mapError (Refusal.map L.rename L.move) := by
  have hlength : code'.length = code.length := by simpa using hcode.length_eq.symm
  have hempty : code'.isEmpty = code.isEmpty := by simpa using isEmpty_alike hcode
  have hsize := h.core.size_eq
  have hfound : (b'.warrior? (L.rename id)).isSome = (b.warrior? id).isSome := by
    have hmem : L.rename id ∈ b'.warriors.map (·.id) ↔ id ∈ b.warriors.map (·.id) := by
      rw [h.ids]
      exact List.mem_map_of_injective L.rename_injective
    rw [Bool.eq_iff_iff]
    simpa [Battle.warrior?] using hmem
  rw [Battle.checkLoadable, Battle.checkLoadable, hempty, hlength, hsize, hfound]
  split
  · rfl
  · split
    · rfl
    · split
      · rfl
      · rfl

theorem place {start start' : Nat} (haddress : L.Addresses start start') (hstart : L.Starts start)
    (hstart' : L.Starts start') :
    L.Battles (b.place id process code start) (b'.place (L.rename id) process' code' start') where
  rules := h.rules
  placement := h.placement
  core := h.core.writeFrom hcode haddress
  warriors := List.rel_append h.warriors
    (.cons ⟨rfl, hcode, .single (L.pointers_start haddress hstart hstart'), rfl⟩ .nil)
  turn := h.turn
  steps := h.steps
  concluded := h.concluded
  faults := h.faults
  generator := h.generator

/-- the rows that the codes will cover are searched with the same result -/
theorem firstOccupied? {start start' : Nat} (haddress : L.Addresses start start') (hlt : start < size)
    (hlt' : start' < size) :
    Option.Rel (fun place place' : Nat => (place' : Int) = L.move place)
      (b.core.firstOccupied? b.rules.placement start code.length)
      (b'.core.firstOccupied? b'.rules.placement start' code'.length) := by
  have hlength : code'.length = code.length := by simpa using hcode.length_eq.symm
  rw [h.rules, hlength]
  apply h.core.firstOccupied? haddress
  intro i
  rcases h.placement with hwrap | hstay
  · rw [hwrap]
    rfl
  · rw [haddress.eq hstay hlt hlt', h.core.size_eq]

theorem loadAt {address address' : Int} (haddress : L.Addresses address address')
    (hstart : ∀ c, b.loadAt id process code address = .ok c → L.Starts (b.core.index address))
    (hstart' : ∀ c, b'.loadAt (L.rename id) process' code' address' = .ok c → L.Starts (b'.core.index address')) :
    L.Loads (b.loadAt id process code address) (b'.loadAt (L.rename id) process' code' address') := by
  have hindex := h.core.index_addresses haddress
  have hlt : b.core.index address < size := h.core.size_left ▸ b.core.index_lt h.core.pos_left address
  have hlt' : b'.core.index address' < size := h.core.size_right ▸ b'.core.index_lt h.core.pos_right address'
  have hsearch := h.firstOccupied? hcode hindex hlt hlt'
  unfold Battle.loadAt at hstart hstart' ⊢
  rw [h.checkLoadable hcode] at hstart' ⊢
  cases hload : b.checkLoadable id code with
  | error refusal => exact .error refusal
  | ok _ =>
    rw [hload] at hstart hstart'
    simp only [bind, Except.bind, Except.mapError] at hstart hstart' ⊢
    generalize b.core.firstOccupied? b.rules.placement (b.core.index address) code.length = found,
      b'.core.firstOccupied? b'.rules.placement (b'.core.index address') code'.length = found' at hsearch hstart hstart'
    cases hsearch with
    | none => exact .ok (h.place hcode hindex (hstart _ rfl) (hstart' _ rfl))
    | some hplace =>
      simp only [hplace]
      exact .error (.occupied _)

variable [WordSource G] (hdraws : L.Draws)
include hdraws

/-- the same places are drawn, and room is found at the same one -/
theorem drawStart (attempts : Nat) (g : G) :
    b'.drawStart code'.length attempts g =
      ((b.drawStart code.length attempts g).1.mapError (Refusal.map L.rename L.move),
        (b.drawStart code.length attempts g).2) := by
  induction attempts generalizing g with
  | zero =>
    rw [Battle.drawStart, Battle.drawStart, h.rules]
    rfl
  | succ attempts ih =>
    rw [Battle.drawStart, Battle.drawStart, h.core.size_eq]
    rcases hdraw : Random.drawBelow? b.core.size g with ⟨_ | start, next⟩
    · rfl
    · have hlt : start < size := h.core.size_left ▸ Random.drawWithin?_lt hdraw
      have hsearch := h.firstOccupied? hcode (Addresses.refl (L.shift_of_draws hdraws) start) hlt hlt
      simp only
      generalize b.core.firstOccupied? b.rules.placement start code.length = found,
        b'.core.firstOccupied? b'.rules.placement start code'.length = found' at hsearch
      cases hsearch with
      | none => rfl
      | some _ => exact ih next

theorem load (hstart : ∀ start ∈ (b.load id process code).1.toOption, L.Starts start) :
    (b'.load (L.rename id) process' code').1 =
        (b.load id process code).1.mapError (Refusal.map L.rename L.move) ∧
      L.Battles (b.load id process code).2 (b'.load (L.rename id) process' code').2 := by
  have hload' := h.checkLoadable hcode
  cases hload : b.checkLoadable id code with
  | error refusal =>
    rw [hload] at hload'
    rw [Battle.load_of_not_loadable hload, Battle.load_of_not_loadable hload']
    exact ⟨rfl, h⟩
  | ok _ =>
    rw [hload] at hload'
    have hsearch := h.drawStart hcode hdraws b'.rules.maxPlacementAttempts b'.generator
    have hsame : b.drawStart code.length b'.rules.maxPlacementAttempts b'.generator =
        b.drawStart code.length b.rules.maxPlacementAttempts b.generator := by rw [h.rules, h.generator hdraws]
    rw [Battle.load_of_loadable hload] at hstart ⊢
    rw [Battle.load_of_loadable hload', hsearch, hsame]
    rcases hdraw : b.drawStart code.length b.rules.maxPlacementAttempts b.generator with ⟨refusal | start, g⟩
    · exact ⟨rfl, h.withGenerator g⟩
    · rw [hdraw] at hstart
      have hfits : L.Starts start := hstart start rfl
      have hplaced := h.place hcode (Addresses.refl (L.shift_of_draws hdraws) start) hfits hfits
      exact ⟨rfl, hplaced.withGenerator g⟩

end

/-! ## Requests -/

variable [WordSource G]

theorem perform {request request' : Request} (hrequest : L.Requests request request')
    (hturns : ∀ t ∈ b.requestTurns request, ∀ p ∈ t.sums, L.Fits p)
    (hturns' : ∀ t ∈ b'.requestTurns request', ∀ p ∈ t.sums, L.Fits p)
    (hstarts : ∀ l ∈ b.loading? request, L.Starts l.start)
    (hstarts' : ∀ l ∈ b'.loading? request', L.Starts l.start) :
    (b'.perform request').1 = (b.perform request).1.map L.rename L.move ∧
      L.Battles (b.perform request).2 (b'.perform request').2 := by
  cases hrequest with
  | @load id process process' code code' hdraws hcode =>
    have hloading {start : Nat} (hstart : start ∈ (b.load id process code).1.toOption) :
        ⟨id, process, code, start⟩ ∈ b.loading? (.load id process code) :=
      Option.mem_map_of_mem (fun start => Loading.mk id process code start) hstart
    obtain ⟨hreply, hnext⟩ := h.load hcode hdraws fun start hstart => hstarts _ (hloading hstart)
    rw [Battle.perform, Battle.perform]
    rcases hload' : b'.load (L.rename id) process' code' with ⟨result, next'⟩
    rcases hload : b.load id process code with ⟨refusal | start, next⟩
    · rw [hload, hload'] at hreply hnext
      cases hreply
      exact ⟨rfl, hnext⟩
    · have hlt := (Battle.perform_of_loading (hloading (by rw [hload]; rfl))).2.2.1
      rw [hload, hload'] at hreply hnext
      cases hreply
      have hmove := move_natCast (L.shift_of_draws hdraws) (h.core.size_left ▸ hlt)
      refine ⟨?_, hnext⟩
      simp only [Reply.map, hmove, Int.toNat_natCast]
  | @loadAt id process process' code code' address address' hcode haddress =>
    have hloads := h.loadAt hcode haddress
      (fun c hc => hstarts ⟨id, process, code, b.core.index address⟩ (by simp [Battle.loading?, hc, Except.toOption]))
      (fun c hc => hstarts' ⟨L.rename id, process', code', b'.core.index address'⟩ (by
        simp [Battle.loading?, hc, Except.toOption]))
    rw [Battle.perform, Battle.perform]
    generalize b.loadAt id process code address = result,
      b'.loadAt (L.rename id) process' code' address' = result' at hloads
    cases hloads with
    | ok hnext => exact ⟨rfl, hnext⟩
    | error refusal => exact ⟨rfl, h⟩
  | start =>
    have hempty := isEmpty_alike h.warriors
    rw [Battle.perform, Battle.perform, Battle.start, Battle.start, hempty]
    cases b.warriors.isEmpty with
    | true => exact ⟨rfl, h⟩
    | false => exact ⟨rfl, { h with turn := rfl }⟩
  | step =>
    obtain ⟨hflag, hnext⟩ := h.step (fun t ht => hturns t (Option.mem_toList.2 ht))
      (fun t ht => hturns' t (Option.mem_toList.2 ht))
    exact ⟨congrArg Reply.goesOn hflag, hnext⟩
  | run budget =>
    obtain ⟨houtcome, hnext⟩ := h.run budget hturns hturns'
    exact ⟨congrArg Reply.ended houtcome, hnext⟩

end

end Battles

/-- **Lockstep.** Battles that are alike answer requests that are alike in the same way, but for names and places, and
are alike after every one of them. -/
theorem replay_alike [WordSource G] {b b' : Battle G} (h : L.Battles b b') {requests requests' : List Request}
    (hrequests : List.Forall₂ L.Requests requests requests') (hadmits : L.Admits b requests)
    (hadmits' : L.Admits b' requests') :
    (b'.replay requests').1 = (b.replay requests).1.map (Reply.map L.rename L.move) ∧
      ∀ n, L.Battles (b.after (requests.take n)) (b'.after (requests'.take n)) := by
  induction hrequests generalizing b b' with
  | nil => exact ⟨rfl, fun n => by rw [List.take_nil]; exact h⟩
  | @cons request request' rest rest' hrequest _ ih =>
    obtain ⟨hreply, hnext⟩ := h.perform hrequest
      (fun t ht => hadmits.turns t (List.mem_append_left _ ht))
      (fun t ht => hadmits'.turns t (List.mem_append_left _ ht))
      (fun l hl => hadmits.starts l (List.mem_append_left _ (Option.mem_toList.2 hl)))
      (fun l hl => hadmits'.starts l (List.mem_append_left _ (Option.mem_toList.2 hl)))
    obtain ⟨hreplies, hlater⟩ := ih hnext
      ⟨fun t ht => hadmits.turns t (List.mem_append_right _ ht),
        fun l hl => hadmits.starts l (List.mem_append_right _ hl)⟩
      ⟨fun t ht => hadmits'.turns t (List.mem_append_right _ ht),
        fun l hl => hadmits'.starts l (List.mem_append_right _ hl)⟩
    constructor
    · simp only [Battle.replay, List.map_cons, hreply, hreplies]
    · intro n
      cases n with
      | zero => exact h
      | succ n => exact hlater n

end Likeness

end CoreWar
