/-
Display: what a session shows has no part in what it plays.

The loop of the command line is a run with outputs mixed in: it makes the same steps, and looks at the options only to
decide what to write behind each of them. A step of a game that is going on executes one instruction, so there is a map
for every instruction, and one for the battle before the first. Loading writes nothing to standard output, and the
report reads the battle alone.

- `prepare_ok`: what is played is a new battle after a random loading of each program named, and a start.
- `playOn_fst`, `playOn_texts`: the loop leads to where a run leads, and shows the battle before and after each
  instruction.
- `display_law`: standard output, for all arguments that ask for the same battle.
-/
import CoreWar.CommandLine.Session
import CoreWar.Proofs.Budgets
import CoreWar.Proofs.Frame
import CoreWar.Proofs.Territory

namespace CoreWar

namespace CommandLine

/-- the options ask for the same battle, however it is to be shown -/
structure Options.SameBattle (o o' : Options) : Prop where
  seed : o.seed = o'.seed
  coreSize : o.coreSize = o'.coreSize
  programs : o.programs = o'.programs
  maxSteps : o.maxSteps = o'.maxSteps
  unwrapped : o.unwrapped = o'.unwrapped
  noSplit : o.noSplit = o'.noSplit

/-- the text, if it goes to standard output -/
def Output.out? : Output → Option String
  | .out text => some text
  | .err _ | .event _ | .pause _ => none

/-- the texts that go to standard output, in order -/
def texts (outputs : List Output) : List String := outputs.filterMap Output.out?

/-- the map of the core, with an empty line behind it -/
def frame (o : Options) (b : Game) : String := ownershipMap ⟨o.width, o.color⟩ b.core.cells.toList ++ "\n"

/-- the maps that are shown if so many are due: of the battle, of what it is after an instruction, and so on -/
def frames (o : Options) (b : Game) (count : Nat) : List String :=
  if o.showMap then (List.range count).map fun i => frame o (b.run i).2 else []

/-- random loadings of the codes, under ids counted up from `id` -/
def loadRequests (id : ProgramId) (codes : List (List Cell)) : List Request :=
  (codes.zipIdx id).map fun (code, id) => .load id 0 code

/-! ## Texts -/

theorem texts_append (outputs more : List Output) : texts (outputs ++ more) = texts outputs ++ texts more :=
  List.filterMap_append

theorem texts_newEvents (known : Nat) (b : Game) : texts (newEvents known b) = [] := by
  rw [texts, newEvents, List.filterMap_map]
  exact List.filterMap_eq_nil_iff.2 fun _ _ => rfl

theorem texts_pauseOutputs (o : Options) : texts (pauseOutputs o) = [] := by
  unfold pauseOutputs
  split <;> rfl

/-- of what a step writes, only the map goes to standard output -/
theorem texts_stepOutputs (o : Options) (known : Nat) (b : Game) :
    texts (stepOutputs o known b) = texts (mapOutputs o b) := by
  rw [stepOutputs, texts_append, texts_append, texts_newEvents, texts_pauseOutputs, List.nil_append, List.append_nil]

theorem stdout_eq (t : Transcript) : t.stdout = String.join (texts t.outputs) := by
  rw [Transcript.stdout]
  induction t.outputs with
  | nil => rfl
  | cons output rest ih =>
    rw [List.map_cons, String.join_cons, ih]
    cases output with
    | out text => exact String.join_cons.symm
    | err text => exact String.empty_append
    | event event => exact String.empty_append
    | pause milliseconds => exact String.empty_append

theorem frames_one (o : Options) (b : Game) : frames o b 1 = texts (mapOutputs o b) := by
  unfold frames mapOutputs
  cases o.showMap <;> rfl

/-- the map of the battle is shown first, then those of what it becomes; behind a step that does not go on there is one
more -/
theorem frames_of_step (o : Options) {b next : Game} {flag : Bool} (hstep : b.step = (flag, next)) {count : Nat}
    (hcount : flag = true ∨ count ≤ 1) :
    frames o b (count + 1) = texts (mapOutputs o b) ++ frames o next count := by
  have hlater : ∀ i ∈ List.range count, frame o (b.run (i + 1)).2 = frame o (next.run i).2 := by
    intro i hi
    cases flag with
    | true => rw [Battle.run_of_going hstep]
    | false =>
      have hzero : i = 0 := by
        have hlt := List.mem_range.1 hi
        rcases hcount with hgoing | hone
        · cases hgoing
        · omega
      rw [hzero, Battle.run_of_refused hstep, Battle.run]
  unfold frames mapOutputs
  cases o.showMap with
  | false => rfl
  | true =>
    rw [if_pos rfl, if_pos rfl, List.range_succ_eq_map, List.map_cons, List.map_map]
    exact congrArg (frame o b :: ·) (List.map_congr_left hlater)

theorem join_singleton {text : String} : String.join [text] = text := by
  rw [String.join_cons, String.join_nil, String.append_empty]

/-- the listing stands behind the report -/
theorem report_eq (b : Game) (disassemble : Bool) :
    report b disassemble = report b false ++ if disassemble then b.core.listing else "" := by
  rw [report, report, if_neg Bool.false_ne_true, String.append_empty]

/-! ## The loop -/

/-- the loop of the command line leads to where a run leads -/
theorem playOn_fst (o : Options) (b : Game) (outputs : Array Output) (budget : Nat) :
    (playOn o b outputs budget).1 = (b.run budget).2 := by
  induction budget generalizing b outputs with
  | zero => rfl
  | succ budget ih =>
    rw [playOn]
    rcases hstep : b.step with ⟨_ | _, next⟩
    · rw [Battle.run_of_refused hstep]
    · rw [Battle.run_of_going hstep]
      exact ih next _

/-- and it shows the battle before and after each instruction -/
theorem playOn_texts (o : Options) {b : Game} (h : b.Standing) (hstarted : b.isStarted = true)
    (hopen : b.concluded = false) {outputs : Array Output} {before : List String}
    (houtputs : texts outputs.toList = before ++ texts (mapOutputs o b)) (budget : Nat) :
    texts (playOn o b outputs budget).2.toList =
      before ++ frames o b ((b.run budget).2.steps - b.steps + 1) := by
  induction budget generalizing b outputs before with
  | zero =>
    have hnone : (b.run 0).2.steps - b.steps = 0 := Nat.sub_self b.steps
    rw [hnone, frames_one]
    exact houtputs
  | succ budget ih =>
    have hsteps := h.steps_step hstarted hopen
    have hgoing := (h.step_going hstarted hopen).2
    have hstanding := Battle.moves_standing b.step_moves h
    have hopened := Battle.isStarted_step hstarted
    have hwritten : ∀ next, texts (outputs ++ stepOutputs o b.log.size next).toList =
        (before ++ texts (mapOutputs o b)) ++ texts (mapOutputs o next) := by
      intro next
      rw [Array.toList_appendList, texts_append, texts_stepOutputs, houtputs]
    rw [playOn]
    rcases hstep : b.step with ⟨_ | _, next⟩
    · have hcount : next.steps - b.steps + 1 = 1 + 1 := by
        have hone : next.steps = b.steps + 1 := by rw [← hsteps, hstep]
        omega
      rw [Battle.run_of_refused hstep, hcount, frames_of_step o hstep (Or.inr (Nat.le_refl 1)), frames_one,
        ← List.append_assoc]
      exact hwritten next
    · rw [hstep] at hgoing hstanding hopened
      have hcount : (next.run budget).2.steps - b.steps + 1 = (next.run budget).2.steps - next.steps + 1 + 1 := by
        have hone : next.steps = b.steps + 1 := by rw [← hsteps, hstep]
        have hmore : next.steps ≤ (next.run budget).2.steps := Battle.steps_le_of_moves (next.run_moves budget)
        omega
      rw [Battle.run_of_going hstep, hcount, frames_of_step o hstep (Or.inl rfl), ← List.append_assoc]
      exact ih hstanding hopened hgoing (hwritten next)

/-! ## Loading -/

/-- the programs named are known, and each is loaded at a random place; nothing goes to standard output -/
theorem loadPrograms_ok {b b' : Game} {id : ProgramId} {names : List String} {outputs : List Output}
    (h : loadPrograms b id names = (outputs, .ok b')) :
    texts outputs = [] ∧ ∃ (codes : List (List Cell)) (starts : List Nat), names.map Roster.find? = codes.map some ∧
      b.replay (loadRequests id codes) = (starts.map .loadedAt, b') := by
  induction names generalizing b id outputs with
  | nil =>
    obtain ⟨rfl, hsame⟩ := Prod.mk.inj h
    obtain rfl := Except.ok.inj hsame
    exact ⟨rfl, [], [], rfl, rfl⟩
  | cons name rest ih =>
    rw [loadPrograms] at h
    cases hcode : Roster.find? name with
    | none =>
      rw [hcode] at h
      cases (Prod.mk.inj h).2
    | some code =>
      rw [hcode] at h
      rcases hload : b.load id 0 code with ⟨_ | start, loaded⟩
      · simp only [hload] at h
        cases (Prod.mk.inj h).2
      · simp only [hload] at h
        rcases hrest : loadPrograms loaded (id + 1) rest with ⟨written, result⟩
        rw [hrest] at h
        obtain ⟨rfl, rfl⟩ := Prod.mk.inj h
        obtain ⟨htexts, codes, starts, hcodes, hreplay⟩ := ih hrest
        refine ⟨?_, code :: codes, start :: starts, ?_, ?_⟩
        · rw [texts_append, texts_newEvents]
          exact htexts
        · rw [List.map_cons, List.map_cons, hcode, hcodes]
        · have hperform : b.perform (.load id 0 code) = (.loadedAt start, loaded) := by
            rw [Battle.perform, hload]
          rw [loadRequests, List.zipIdx_cons, List.map_cons, Battle.replay, hperform]
          rw [loadRequests] at hreplay
          simp only [hreplay]
          rfl

theorem isStarted_of_start {b b' : Game} (h : b.start = .ok b') : b'.isStarted = true := by
  unfold Battle.start at h
  split at h
  · cases h
  · obtain rfl := Except.ok.inj h
    rfl

/-- loading executes no instruction -/
theorem idle_loadRequests (id : ProgramId) (codes : List (List Cell)) :
    ∀ request ∈ loadRequests id codes, request ≠ .step ∧ ∀ budget, request ≠ .run budget := by
  intro request hrequest
  obtain ⟨entry, -, rfl⟩ := List.mem_map.1 hrequest
  simp

/-- what is played is a new battle after a random loading of each program, and a start -/
theorem prepare_ok {o : Options} {b : Game} (h : (prepare o).2 = .ok b) :
    texts (prepare o).1 = [] ∧ b.isStarted = true ∧ ∃ (b₀ : Game) (codes : List (List Cell)) (starts : List Nat),
      Battle.ofRules o.rules (Random.Generator.ofSeed o.seed) = .ok b₀ ∧ o.programs.map Roster.find? = codes.map some ∧
      b₀.replay (loadRequests 0 codes ++ [.start]) = (starts.map .loadedAt ++ [.done], b) := by
  unfold prepare at h ⊢
  cases hnew : Battle.ofRules o.rules (Random.Generator.ofSeed o.seed) with
  | error refusal =>
    rw [hnew] at h
    cases h
  | ok b₀ =>
    rw [hnew] at h
    rcases hloaded : loadPrograms b₀ 0 o.programs with ⟨outputs, _ | b'⟩
    · simp only [hloaded] at h
      cases h
    · simp only [hloaded] at h ⊢
      obtain ⟨htexts, codes, starts, hcodes, hreplay⟩ := loadPrograms_ok hloaded
      cases hstart : b'.start with
      | error refusal =>
        rw [hstart] at h
        cases h
      | ok c =>
        rw [hstart] at h
        obtain rfl : c = b := Except.ok.inj h
        refine ⟨htexts, isStarted_of_start hstart, b₀, codes, starts, rfl, hcodes, ?_⟩
        have hafter : b₀.after (loadRequests 0 codes) = b' := by rw [Battle.after, hreplay]
        have hopened : b'.replay [.start] = ([.done], c) := by
          simp only [Battle.replay, Battle.perform, hstart]
        rw [Battle.replay_append, hreplay, hafter, hopened]

/-- options that ask for the same battle prepare the same -/
theorem Options.SameBattle.prepare_eq {o o' : Options} (h : o.SameBattle o') : prepare o = prepare o' := by
  have hrules : o.rules = o'.rules := by
    rw [Options.rules, Options.rules, h.coreSize, h.unwrapped, h.noSplit]
  rw [prepare, prepare, hrules, h.seed, h.programs]

/-- what is played has been started, and nothing was executed yet -/
theorem prepare_ready {o : Options} {b : Game} (h : (prepare o).2 = .ok b) :
    b.Standing ∧ b.isStarted = true ∧ b.concluded = false ∧ b.steps = 0 := by
  obtain ⟨-, hstarted, b₀, codes, starts, hnew, -, hreplay⟩ := prepare_ok h
  have hafter : b₀.after (loadRequests 0 codes ++ [.start]) = b := by rw [Battle.after, hreplay]
  have hstanding : b.Standing := by
    rw [← hafter]
    exact Battle.standing_after hnew _
  have hsteps : b.steps = 0 := by
    have hidle := Battle.idle_start (idle_loadRequests 0 codes)
    rw [← hafter, Battle.steps_after_of_idle b₀ hidle, (Battle.ofRules_ok hnew).2]
  exact ⟨hstanding, hstarted, (hstanding.unharmed hsteps).1, hsteps⟩

/-- a session whose programs can be loaded writes what loading and the loop write, and then the report -/
theorem session_eq {args : List String} {o : Options} (hread : readArguments args = .ok (.battle o)) {b : Game}
    (hprepared : (prepare o).2 = .ok b) :
    session args =
      ⟨(prepare o).1 ++ (playOn o b (mapOutputs o b).toArray o.maxSteps).2.toList ++
        [.out (report (b.run o.maxSteps).2 o.disassemble)], 0⟩ := by
  rw [session, hread]
  simp only [battleSession]
  rcases hboth : prepare o with ⟨outputs, result⟩
  rw [hboth] at hprepared
  obtain rfl : result = .ok b := hprepared
  rw [← playOn_fst o b (mapOutputs o b).toArray]

/-! ## Main result -/

/-- **Display.** Let options name programs that can be loaded, and let `b` be the battle that is played.
- `b` is a new battle after random loadings of the programs, all of them granted, and a start.
- Let `final` be `b` after a run of as many steps as the options allow. A run with a budget of `i` steps executes `i`
  instructions, up to as many as `final` has behind it.
- Whatever arguments ask for the same battle, the loop of the command line leads to `final`, and standard output is a
  sequence of maps and the report on `final`; the listing of the core stands behind the report if it is asked for. If
  maps are to be shown, they are those of `b` and of what it is after each instruction up to `final`; otherwise there
  are none. -/
theorem display_law {o : Options} {b : Game} (hprepared : (prepare o).2 = .ok b) :
    let final := (b.run o.maxSteps).2
    (∃ (b₀ : Game) (codes : List (List Cell)) (starts : List Nat),
      Battle.ofRules o.rules (Random.Generator.ofSeed o.seed) = .ok b₀ ∧ o.programs.map Roster.find? = codes.map some ∧
      b₀.replay (loadRequests 0 codes ++ [.start]) = (starts.map .loadedAt ++ [.done], b)) ∧
    (∀ i ≤ final.steps, (b.run i).2.steps = i) ∧
    ∀ args o', readArguments args = .ok (.battle o') → o'.SameBattle o →
      (playOn o' b (mapOutputs o' b).toArray o'.maxSteps).1 = final ∧ (session args).exitCode = 0 ∧
      (session args).stdout = String.join (frames o' b (final.steps + 1)) ++
        (report final false ++ if o'.disassemble then final.core.listing else "") := by
  intro final
  obtain ⟨hsilent, -, hloaded⟩ := prepare_ok hprepared
  obtain ⟨hstanding, hstarted, hopen, hsteps⟩ := prepare_ready hprepared
  refine ⟨hloaded, ?_, ?_⟩
  · intro i hi
    have hwithin : b.steps + i ≤ (b.run o.maxSteps).2.steps := by
      rw [hsteps, Nat.zero_add]
      exact hi
    rw [Battle.run_steps_of_le hstanding hstarted hopen hwithin, hsteps, Nat.zero_add]
  · intro args o' hread hsame
    rw [← hsame.prepare_eq] at hprepared hsilent
    have hsession := session_eq hread hprepared
    have hfirst : texts (mapOutputs o' b).toArray.toList = [] ++ texts (mapOutputs o' b) := rfl
    have hshown := playOn_texts o' hstanding hstarted hopen hfirst o'.maxSteps
    rw [hsteps, Nat.sub_zero, List.nil_append] at hshown
    refine ⟨?_, ?_, ?_⟩
    · rw [playOn_fst, hsame.maxSteps]
    · rw [hsession]
    · rw [hsession, stdout_eq, texts_append, texts_append, hsilent, hshown, List.nil_append, String.join_append,
        ← report_eq, hsame.maxSteps]
      exact congrArg (String.join (frames o' b (final.steps + 1)) ++ ·) join_singleton

/-- imp and dwarf in eight cells, once with maps in rows of four, and once with the listing -/
theorem display_law_imp_dwarf :
    let o : Options := { coreSize := 8, maxSteps := 5 }
    let shown : Options := { o with showMap := true, width := 4 }
    ∃ b, (prepare o).2 = .ok b ∧
      (session ["--core-size", "8", "--show", "--max-steps=5", "--width=4"]).stdout =
        String.join (frames shown b ((b.run 5).2.steps + 1)) ++ (report (b.run 5).2 false ++ "") ∧
      (session ["--max-steps", "5", "--disassemble", "--core-size=8"]).stdout =
        "" ++ (report (b.run 5).2 false ++ (b.run 5).2.core.listing) := by
  intro o shown
  let listed : Options := { o with disassemble := true }
  have hloads : (prepare o).2.isOk = true := by decide +kernel
  cases hprepared : (prepare o).2 with
  | error failure =>
    rw [hprepared] at hloads
    cases hloads
  | ok b =>
    obtain ⟨-, -, hdisplay⟩ := display_law hprepared
    have hsame : shown.SameBattle o := ⟨rfl, rfl, rfl, rfl, rfl, rfl⟩
    have hsame' : listed.SameBattle o := ⟨rfl, rfl, rfl, rfl, rfl, rfl⟩
    exact ⟨b, rfl, (hdisplay _ shown rfl hsame).2.2, (hdisplay _ listed rfl hsame').2.2⟩

end CommandLine

end CoreWar
