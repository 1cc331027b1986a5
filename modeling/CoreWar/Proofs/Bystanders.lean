/-
Bystanders: programs that cannot write.

Only MOV and ADD change cells, and opcodes are only copied. So if all programs but one are made of the other opcodes,
every cell that could write belongs to that one, whatever has been copied where, and nobody else gets past the ownership
check on it: the turn of a bystander leaves the core as it is. Bystanders can die, jump and split as they like.

- `after_carries_of_no_loading`, `after_preserves_of_no_loading`: invariants of the requests that load nobody, with or
  without the turns that they take.
- `warriors_after_of_idle`, `after_opening`, `loaded_at`: until an instruction is executed, the warriors are the programs
  loaded, as they were loaded, and each stands in its place.
- `SoleWriter`: only one program can write; kept by every step.
- `SoleWriter.coreAfter_eq`: the turn of a bystander leaves the core as it is.
- `executed_of_foreign`: whoever executes a cell that is not its own dies.
-/
import CoreWar.Proofs.Provenance
import CoreWar.Proofs.Territory
import CoreWar.Proofs.TurnOrder

namespace CoreWar

/-- an instruction with this opcode changes no cell -/
def Opcode.isHarmless : Opcode → Bool
  | .dat | .jmp | .spl | .nop => true
  | .mov | .add => false

/-- the warrior that a program that was loaded starts as -/
def Loading.warrior (l : Loading) : Warrior := .load l.id l.stamped (Int64.ofNat l.start)

namespace Battle

variable {G : Type}

/-! ## Requests without instructions, and without loadings -/

section

variable {P : List (Turn G) → Battle G → Prop} (hstep : ∀ ts b, P ts b → P (ts ++ b.nextTurn?.toList) b.step.2)
  {ts : List (Turn G)} {b : Battle G} (hb : P ts b)
include hstep hb

/-- what every step keeps of the turns taken so far and the battle is kept by a run -/
theorem run_carries (budget : Nat) : P (ts ++ b.runTurns budget) (b.run budget).2 := by
  induction budget generalizing ts b with
  | zero =>
    rw [runTurns, List.append_nil]
    exact hb
  | succ budget ih =>
    have hfirst := hstep ts b hb
    simp only [runTurns, run]
    rcases hnext : b.step with ⟨_ | _, next⟩
    · rw [hnext] at hfirst
      exact hfirst
    · rw [hnext] at hfirst
      rw [← List.append_assoc]
      exact ih hfirst

variable [WordSource G] (hdrawn : ∀ ts b generator, P ts b → P ts { b with generator })
  (hopened : ∀ ts b, b.warriors ≠ [] → P ts b → P ts { b with turn := some 0 })
include hdrawn hopened

theorem perform_carries {request : Request} (hnone : b.loading? request = none) :
    P (ts ++ b.requestTurns request) (b.perform request).2 := by
  rcases perform_of_no_loading hnone with ⟨generator, heq⟩ | ⟨rfl, hloaded, heq⟩ | ⟨rfl, -⟩ | ⟨budget, rfl, -⟩
  · cases request with
    | load id process code =>
      rw [heq, requestTurns, List.append_nil]
      exact hdrawn ts b generator hb
    | loadAt id process code address =>
      rw [heq, requestTurns, List.append_nil]
      exact hdrawn ts b generator hb
    | start =>
      rw [heq, requestTurns, List.append_nil]
      exact hdrawn ts b generator hb
    | step => exact hstep ts b hb
    | run budget => exact run_carries hstep hb budget
  · rw [heq, requestTurns, List.append_nil]
    exact hopened ts b hloaded hb
  · exact hstep ts b hb
  · exact run_carries hstep hb budget

/-- what draws, an opening and steps keep of the turns taken so far and the battle is kept as long as nobody is
loaded -/
theorem after_carries_of_no_loading {requests : List Request} (hnone : b.loaded requests = []) :
    P (ts ++ b.turns requests) (b.after requests) := by
  induction requests generalizing ts b with
  | nil =>
    rw [turns, List.append_nil]
    exact hb
  | cons request rest ih =>
    obtain ⟨hfirst, hrest⟩ := List.append_eq_nil_iff.1 hnone
    rw [after_cons, turns, ← List.append_assoc]
    exact ih (perform_carries hstep hb hdrawn hopened (Option.toList_eq_nil_iff.1 hfirst)) hrest

end

/-- what draws, an opening and steps keep is kept as long as nobody is loaded -/
theorem after_preserves_of_no_loading [WordSource G] {P : Battle G → Prop}
    (hdrawn : ∀ b generator, P b → P { b with generator })
    (hopened : ∀ b, b.warriors ≠ [] → P b → P { b with turn := some 0 }) (hstep : ∀ b, P b → P b.step.2) {b : Battle G}
    (hb : P b) {requests : List Request} (hnone : b.loaded requests = []) : P (b.after requests) :=
  @after_carries_of_no_loading G (fun _ => P) (fun _ => hstep) [] b hb _ (fun _ => hdrawn) (fun _ => hopened) requests
    hnone

/-- until an instruction is executed, the warriors are the programs loaded, as they were loaded -/
theorem warriors_after_of_idle [WordSource G] (b : Battle G) {requests : List Request}
    (hidle : ∀ request ∈ requests, request ≠ .step ∧ ∀ budget, request ≠ .run budget) :
    (b.after requests).warriors = b.warriors ++ (b.loaded requests).map Loading.warrior := by
  induction requests generalizing b with
  | nil => exact (List.append_nil _).symm
  | cons request rest ih =>
    obtain ⟨⟨hstep, hrun⟩, hrest⟩ := List.forall_mem_cons.1 hidle
    have hfirst : (b.perform request).2.warriors =
        b.warriors ++ (b.loading? request).toList.map Loading.warrior := by
      cases h : b.loading? request with
      | some l =>
        obtain ⟨-, -, -, generator, heq⟩ := perform_of_loading h
        rw [heq]
        rfl
      | none =>
        rw [Option.toList_none, List.map_nil, List.append_nil]
        rcases perform_of_no_loading h with ⟨generator, heq⟩ | ⟨-, -, heq⟩ | ⟨hplay, -⟩ | ⟨budget, hplay, -⟩
        · rw [heq]
        · rw [heq]
        · exact absurd hplay hstep
        · exact absurd hplay (hrun budget)
    rw [after_cons, ih _ hrest, hfirst, loaded, List.map_append, List.append_assoc]

/-- the opening loads nobody -/
theorem loaded_start [WordSource G] (b : Battle G) (requests : List Request) :
    b.loaded (requests ++ [.start]) = b.loaded requests := by
  rw [loaded_append]
  exact List.append_nil _

/-- the opening, after programs were loaded: they stand in a row, the first has the turn, and nothing is executed yet -/
theorem after_opening [WordSource G] {rules : Rules} {g : G} {b₀ : Battle G} (h₀ : ofRules rules g = .ok b₀)
    {requests : List Request} (hidle : ∀ request ∈ requests, request ≠ .step ∧ ∀ budget, request ≠ .run budget)
    (hsome : b₀.loaded requests ≠ []) :
    let b := b₀.after (requests ++ [.start])
    b.warriors = (b₀.loaded requests).map Loading.warrior ∧ b.turn = some 0 ∧ b.steps = 0 := by
  intro b
  have hrow : (b₀.after requests).warriors = (b₀.loaded requests).map Loading.warrior := by
    rw [warriors_after_of_idle b₀ hidle, (ofRules_ok h₀).2, List.nil_append]
  have hsteps : (b₀.after requests).steps = 0 := by
    rw [steps_after_of_idle b₀ hidle, (ofRules_ok h₀).2]
  have hcrowd : (b₀.after requests).warriors ≠ [] := by
    rw [hrow]
    simpa using hsome
  have hopened : b = { b₀.after requests with turn := some 0 } := by
    rw [← after_start hcrowd, ← after_append]
  rw [hopened]
  exact ⟨hrow, rfl, hsteps⟩

/-- a program that was loaded where all cells have to be free stands in its place until an instruction is executed -/
theorem loaded_at [WordSource G] {rules : Rules} {g : G} {b₀ : Battle G} (h₀ : ofRules rules g = .ok b₀)
    (hwrap : rules.placement = .wrapping) (hsize : rules.coreSize < 2 ^ 63) {requests : List Request}
    (hidle : ∀ request ∈ requests, request ≠ .step ∧ ∀ budget, request ≠ .run budget)
    {before behind : List Loading} {l : Loading} (hloaded : b₀.loaded requests = before ++ l :: behind) :
    l.start < rules.coreSize ∧ (b₀.after requests).warriors[before.length]? = some l.warrior ∧
      ∀ (i : Nat) (c : Cell), l.stamped[i]? = some c → (b₀.after requests).core.read (l.start + i) = c := by
  have hstart : l.start < rules.coreSize := by
    apply start_lt_of_mem_loaded (orderly_ofRules h₀)
    rw [hloaded]
    exact List.mem_append_right _ List.mem_cons_self
  have hplace : (b₀.after requests).warriors[before.length]? = some l.warrior := by
    have hnew : b₀.warriors = [] := by rw [(ofRules_ok h₀).2]
    rw [warriors_after_of_idle b₀ hidle, hnew, hloaded, List.nil_append, List.getElem?_map,
      List.getElem?_append_right (Nat.le_refl _), Nat.sub_self, List.getElem?_cons_zero, Option.map_some]
  refine ⟨hstart, hplace, ?_⟩
  have hsteps : (b₀.after requests).steps = 0 := by
    rw [steps_after_of_idle b₀ hidle, (ofRules_ok h₀).2]
  have hmax : Int64.maxValue.toInt = 9223372036854775807 := rfl
  have hsettled := settled_after h₀ hwrap (by omega) requests hsteps
  obtain ⟨pointer, hone, hpresent⟩ := (hsettled.stands _ (List.mem_of_getElem? hplace)).present
  obtain rfl : Int64.ofNat l.start = pointer := List.singleton_inj.1 hone
  rw [Int64.toInt_ofNat_of_lt (by omega)] at hpresent
  exact hpresent

/-! ## Who can write -/

/-- only the program `id` can write: its code apart, all code is harmless -/
structure SoleWriter (id : ProgramId) (b : Battle G) : Prop where
  traced : Traced b
  code : ∀ stamp ∈ b.stamps, ∀ t ∈ stamp.2, t.op.isHarmless = false → t.ownerProgram = some id

theorem soleWriter_after [WordSource G] {rules : Rules} {g : G} {b₀ : Battle G} (h₀ : ofRules rules g = .ok b₀)
    {requests : List Request} {id : ProgramId}
    (hothers : ∀ l ∈ b₀.loaded requests, l.id = id ∨ ∀ c ∈ l.code, c.op.isHarmless = true) :
    SoleWriter id (b₀.after requests) := by
  refine ⟨traced_after h₀ requests, ?_⟩
  intro stamp hstamp t ht hwrites
  rw [stamps_after_new h₀] at hstamp
  obtain ⟨l, hl, rfl⟩ := List.mem_map.1 hstamp
  obtain ⟨c, hc, rfl⟩ := List.mem_map.1 ht
  rcases hothers l hl with rfl | hharmless
  · exact Cell.ownerProgram_ownedBy l.id l.process c
  · have hop : c.op.isHarmless = false := hwrites
    rw [hharmless c hc] at hop
    cases hop

/-- where nobody else's code can write, a program that was loaded is the only one to -/
theorem soleWriter_of_loaded [WordSource G] {rules : Rules} {g : G} {b₀ : Battle G} (h₀ : ofRules rules g = .ok b₀)
    {requests : List Request} {before behind : List Loading} {l : Loading}
    (hloaded : b₀.loaded requests = before ++ l :: behind)
    (hothers : ∀ other ∈ before ++ behind, ∀ c ∈ other.code, c.op.isHarmless = true) :
    SoleWriter l.id (b₀.after requests) := by
  apply soleWriter_after h₀
  intro other hmem
  rw [hloaded, List.mem_append, List.mem_cons] at hmem
  rcases hmem with hbefore | rfl | hbehind
  · exact Or.inr (hothers other (List.mem_append_left _ hbefore))
  · exact Or.inl rfl
  · exact Or.inr (hothers other (List.mem_append_right _ hbehind))

namespace SoleWriter

variable {id : ProgramId} {b : Battle G}

/-- a cell that could write is the program's own, wherever it stands -/
theorem owner (h : SoleWriter id b) {a : Int} (hwrites : (b.core.read a).op.isHarmless = false) :
    (b.core.read a).ownerProgram = some id := by
  rcases h.traced.origin a with hempty | ⟨stamp, hstamp, t, ht, hmake⟩
  · rw [hempty.op] at hwrites
    cases hwrites
  · rw [hmake.op] at hwrites
    rw [Cell.ownerProgram, hmake.owner]
    exact h.code stamp hstamp t ht hwrites

/-- **Bystanders.** The turn of anybody else leaves the core as it is. -/
theorem coreAfter_eq (h : SoleWriter id b) {w : Warrior} (hid : w.id ≠ id) : b.coreAfter w = b.core := by
  rcases coreAfter_cases b w with hsame | ⟨address, c, hstore, -⟩
  · exact hsame
  · -- it would have to execute a cell of the writer
    have hpass : ∀ address owner,
        b.core.effect b.rules w.next.2 w.next.1 ≠ .error (.ownershipMismatch address owner w.id) := by
      intro address owner hfault
      rw [hstore] at hfault
      cases hfault
    have hown : (b.core.read w.next.1.toInt).ownerProgram = some w.next.2.id := Core.owner_of_effect hpass
    have hwrites : (b.core.read w.next.1.toInt).op.isHarmless = false := by
      rcases Core.effect_store hstore with ⟨hop, -⟩ | ⟨hop, -⟩
      · rw [hop]
        rfl
      · rw [hop]
        rfl
    rw [h.owner hwrites] at hown
    exact absurd (Option.some.inj hown).symm hid

theorem move {b' : Battle G} (h : SoleWriter id b) (hmove : Move b b') (hwarriors : b'.warriors = b.warriors) :
    SoleWriter id b' := by
  refine ⟨move_traced hmove h.traced, ?_⟩
  rw [stamps, hwarriors]
  exact h.code

theorem step (h : SoleWriter id b) : SoleWriter id b.step.2 := by
  refine ⟨(step_moves b).preserves (P := Traced) (fun _ _ => move_traced) h.traced, ?_⟩
  rw [stamps_step]
  exact h.code

end SoleWriter

/-! ## Foreign cells, and others alive -/

/-- whoever executes a cell that is not its own dies -/
theorem executed_of_foreign {b : Battle G} {w : Warrior} (h : (b.core.read w.next.1.toInt).ownerProgram ≠ some w.id) :
    (b.executed w).alive = false := by
  have hfault : b.core.effect b.rules w.next.2 w.next.1 = .error _ := Core.Execution.effect_eq (.foreign h)
  rw [executed, hfault]
  rfl

/-- ids that all differ tell places apart -/
theorem DistinctIds.place_eq {b : Battle G} (h : b.DistinctIds) {i j : Nat} {w v : Warrior}
    (hw : b.warriors[i]? = some w) (hv : b.warriors[j]? = some v) (hid : w.id = v.id) : i = j := by
  have hi : (b.warriors.map (·.id))[i]? = some w.id := by rw [List.getElem?_map, hw, Option.map_some]
  have hj : (b.warriors.map (·.id))[j]? = some w.id := by rw [List.getElem?_map, hv, Option.map_some, hid]
  obtain ⟨hlt, hget⟩ := List.getElem?_eq_some_iff.1 hi
  obtain ⟨hlt', hget'⟩ := List.getElem?_eq_some_iff.1 hj
  exact (List.Nodup.getElem_inj_iff h).1 (hget.trans hget'.symm)

/-- where two are alive, somebody else is -/
theorem exists_other_alive {b : Battle G} (h : b.DistinctIds) (htwo : 2 ≤ b.living.length) (id : ProgramId) :
    ∃ w ∈ b.living, w.id ≠ id := by
  have hdistinct : (b.living.map (·.id)).Nodup := (List.filter_sublist.map _).nodup h
  rcases hliving : b.living with _ | ⟨w, _ | ⟨v, rest⟩⟩
  · rw [hliving] at htwo
    cases htwo
  · rw [hliving, List.length_singleton] at htwo
    omega
  · rw [hliving, List.map_cons, List.map_cons, List.nodup_cons] at hdistinct
    have hne : w.id ≠ v.id := by
      intro heq
      apply hdistinct.1
      rw [heq]
      exact List.mem_cons_self
    by_cases hw : w.id = id
    · refine ⟨v, List.mem_cons_of_mem w List.mem_cons_self, ?_⟩
      rw [← hw]
      exact hne.symm
    · exact ⟨w, List.mem_cons_self, hw⟩

end Battle

end CoreWar
