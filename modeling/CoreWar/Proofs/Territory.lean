/-
Territory: what stands in the core before the first instruction is executed.

A loading checks its cells one by one from the start on and writes them from the start on, both round the end of the
core. If all cells have to be free, nothing is ever overwritten: a stamped cell is never taken for free space, not even
where the code handed in is made of empty cells. So until somebody has a turn, the core is the programs loaded, each in
its place, and nothing else. Refused loadings, draws that are thrown away and openings do not matter.

- `Settled`: the invariant; `move_settled`: kept by every move that is no turn.
- `claimed_writeFrom`: writing a row of stamped cells into free ones claims as many cells as it writes.
- `territory_law`: the core, after every sequence of requests by which no instruction was executed.
-/
import Mathlib.Algebra.GroupWithZero.Nat
import CoreWar.Proofs.Circle
import CoreWar.Proofs.Loadings
import CoreWar.Proofs.Orderly

namespace CoreWar

namespace Core

/-! ## Counting claimed cells -/

/-- the number of cells that are not empty -/
def claimed (core : Core) : Nat := core.cells.toList.countP fun c => !c.isEmpty

theorem claimed_le (core : Core) : core.claimed ≤ core.size := List.countP_le_length

theorem claimed_blank (size : Nat) : (blank size).claimed = 0 := by
  rw [claimed, List.countP_eq_zero]
  intro c hc
  simp [blank] at hc
  simp [hc.2]

/-- a claimed cell in the place of an empty one is one more -/
theorem claimed_write {core : Core} {a : Int} {c : Cell} (h : 0 < core.size) (hold : core.isOccupied a = false)
    (hnew : c.isEmpty = false) : (core.write a c).claimed = core.claimed + 1 := by
  have hlt : core.index a < core.cells.toList.length := core.index_lt h a
  have hread : core.cells.toList[core.index a] = core.read a := by simp [read, show _ < core.cells.size from hlt]
  have hempty : (core.read a).isEmpty = true := by simpa [isOccupied] using hold
  rw [claimed, claimed, write, Array.toList_setIfInBounds, List.countP_set hlt, hread, hempty, hnew]
  simp

/-- a row of claimed cells in the place of empty ones claims as many as it is long -/
theorem claimed_writeFrom {core : Core} {start : Int} {code : List Cell} (hlength : code.length ≤ core.size)
    (hold : ∀ i < code.length, core.isOccupied (start + i) = false) (hnew : ∀ c ∈ code, c.isEmpty = false) :
    (core.writeFrom start code).claimed = core.claimed + code.length := by
  induction code generalizing core start with
  | nil => rfl
  | cons c rest ih =>
    rw [List.length_cons] at hlength hold
    have hpos : 0 < core.size := by omega
    have hfirst : core.isOccupied start = false := by simpa using hold 0 (by omega)
    -- the cell written first is none of those behind it
    have hrest : ∀ i < rest.length, (core.write start c).isOccupied (start + 1 + i) = false := by
      intro i hi
      have haddress : start + 1 + (i : Int) = start + (i + 1 : Nat) := by omega
      have hoffset : core.index (start + (i + 1 : Nat) - start) = i + 1 := by
        rw [show start + ((i + 1 : Nat) : Int) - start = ((i + 1 : Nat) : Int) by omega]
        exact index_natCast (by omega)
      have hother : core.index start ≠ core.index (start + (i + 1 : Nat)) := by
        intro heq
        have hzero := (core.index_sub_eq_zero_iff hpos _ _).2 heq
        omega
      have hfree := hold (i + 1) (by omega)
      rw [haddress, isOccupied, core.read_write hpos, if_neg hother]
      exact hfree
    rw [writeFrom, ih (by rw [size_write]; omega) hrest fun d hd => hnew d (List.mem_cons_of_mem c hd),
      claimed_write hpos hfirst (hnew c List.mem_cons_self), List.length_cons]
    omega

end Core

/-! ## Codes in their places -/

namespace Warrior

/-- the warrior's code stands in the core, from its only process on -/
structure Stands (core : Core) (w : Warrior) : Prop where
  length_le : w.code.length ≤ core.size
  claimed : ∀ c ∈ w.code, c.isEmpty = false
  present : ∃ pointer, w.processes = [pointer] ∧
    ∀ (i : Nat) (c : Cell), w.code[i]? = some c → core.read (pointer.toInt + i) = c

/-- no cell of the core belongs to the codes of both warriors -/
def Apart (core : Core) (v w : Warrior) : Prop :=
  ∀ p ∈ v.processes, ∀ q ∈ w.processes, ∀ i < v.code.length, ∀ j < w.code.length,
    core.index (p.toInt + i) ≠ core.index (q.toInt + j)

/-- a code that stands somewhere claims its cells -/
theorem Stands.isOccupied {core : Core} {w : Warrior} (h : w.Stands core) {p : Int64} (hp : p ∈ w.processes) {i : Nat}
    (hi : i < w.code.length) : core.isOccupied (p.toInt + i) = true := by
  obtain ⟨pointer, hone, hpresent⟩ := h.present
  rw [hone, List.mem_singleton] at hp
  subst hp
  rw [Core.isOccupied, hpresent i _ (List.getElem?_eq_getElem hi), h.claimed _ (List.getElem_mem hi), Bool.not_false]

section

variable {core : Core} {start : Nat} {row : List Cell} (hlength : row.length ≤ core.size)
  (hfree : ∀ i < row.length, core.isOccupied (start + i) = false)
include hlength hfree

/-- what stands is not written over by a row that is put into free cells -/
theorem Stands.writeFrom {w : Warrior} (h : w.Stands core) : w.Stands (core.writeFrom start row) := by
  obtain ⟨pointer, hone, hpresent⟩ := h.present
  refine ⟨?_, h.claimed, pointer, hone, ?_⟩
  · rw [Core.size_writeFrom]
    exact h.length_le
  · intro i c hc
    have hi : i < w.code.length := (List.getElem?_eq_some_iff.1 hc).1
    have hmem : pointer ∈ w.processes := hone ▸ List.mem_singleton_self pointer
    rw [Core.read_writeFrom_of_occupied hlength hfree (h.isOccupied hmem hi)]
    exact hpresent i c hc

variable (hpointer : (Int64.ofNat start).toInt = start) (id : ProgramId)
include hpointer

omit hfree in
theorem stands_load (hclaimed : ∀ c ∈ row, c.isEmpty = false) :
    (load id row (Int64.ofNat start)).Stands (core.writeFrom start row) := by
  refine ⟨?_, hclaimed, Int64.ofNat start, rfl, ?_⟩
  · rw [Core.size_writeFrom]
    exact hlength
  · intro i c hc
    rw [hpointer]
    exact core.read_writeFrom_of_lt start hlength hc

omit hlength in
/-- a program that is put into free cells shares none with one that stands -/
theorem Stands.apart_load {v : Warrior} (h : v.Stands core) : v.Apart core (load id row (Int64.ofNat start)) := by
  intro p hp q hq i hi j hj heq
  have hclaimed := h.isOccupied hp hi
  have hstart : q = Int64.ofNat start := List.mem_singleton.1 hq
  rw [hstart, hpointer] at heq
  rw [Core.isOccupied, Core.read, heq] at hclaimed
  have hrow := hfree j hj
  rw [Core.isOccupied, Core.read, hclaimed] at hrow
  cases hrow

end

end Warrior

namespace Battle

variable {G : Type}

/-! ## The invariant -/

/-- the codes of the warriors stand in the core, no two of them share a cell, and no other cell is claimed -/
structure Settled (b : Battle G) : Prop where
  stands : ∀ w ∈ b.warriors, w.Stands b.core
  apart : b.warriors.Pairwise (Warrior.Apart b.core)
  claimed : b.core.claimed = (b.warriors.map (·.code.length)).sum

theorem settled_ofRules {rules : Rules} {g : G} {b : Battle G} (h : ofRules rules g = .ok b) : Settled b := by
  obtain ⟨-, rfl⟩ := ofRules_ok h
  exact ⟨by simp, List.Pairwise.nil, Core.claimed_blank _⟩

/-- a loading into free cells adds its own, and leaves all others where they are -/
theorem place_settled {b : Battle G} (h : Settled b) (hwrap : b.rules.placement = .wrapping)
    (hsize : (b.core.size : Int) ≤ Int64.maxValue.toInt) {id : ProgramId} (process : ProcessId) {code : List Cell}
    {start : Nat} (hload : b.checkLoadable id code = .ok ())
    (hfree : b.core.firstOccupied? b.rules.placement start code.length = none) (hstart : start < b.core.size) :
    Settled (b.place id process code start) := by
  let row : List Cell := code.map (Cell.ownedBy id process)
  have hsame : row.length = code.length := List.length_map _
  have hmax : Int64.maxValue.toInt = 9223372036854775807 := rfl
  have hpointer : (Int64.ofNat start).toInt = start := Int64.toInt_ofNat_of_lt (by omega)
  have hlength : row.length ≤ b.core.size := hsame ▸ length_le_of_checkLoadable hload
  have hclaimed : ∀ c ∈ row, c.isEmpty = false := by
    intro c hc
    obtain ⟨d, -, rfl⟩ := List.mem_map.1 hc
    exact Cell.isEmpty_ownedBy id process d
  have hrow : ∀ i < row.length, b.core.isOccupied (start + i) = false := by
    intro i hi
    rw [hwrap] at hfree
    exact Core.firstOccupied?_eq_none_iff.1 hfree i (hsame ▸ hi) rfl
  refine ⟨?_, ?_, ?_⟩
  · intro w hw
    rcases List.mem_append.1 hw with hold | hnew
    · exact (h.stands w hold).writeFrom hlength hrow
    · rw [List.mem_singleton.1 hnew]
      exact Warrior.stands_load hlength hpointer id hclaimed
  · -- places are taken modulo the size, which a loading does not change
    have hindex : Warrior.Apart (b.place id process code start).core = Warrior.Apart b.core := by
      unfold Warrior.Apart
      simp only [place, Core.index_writeFrom]
    rw [hindex]
    refine List.pairwise_append.2 ⟨h.apart, List.pairwise_singleton _ _, ?_⟩
    intro v hv w hw
    rw [List.mem_singleton.1 hw]
    exact (h.stands v hv).apart_load hrow hpointer id
  · have hsum : ((b.place id process code start).warriors.map (·.code.length)).sum =
        (b.warriors.map (·.code.length)).sum + row.length := by
      simp [place, Warrior.load, row]
    rw [hsum, ← h.claimed]
    exact Core.claimed_writeFrom hlength hrow hclaimed

/-- until an instruction is executed, every move leaves the battle settled -/
theorem move_settled {rules : Rules} (hwrap : rules.placement = .wrapping)
    (hsize : (rules.coreSize : Int) ≤ Int64.maxValue.toInt) {b b' : Battle G} (hmove : Move b b')
    (horder : Orderly rules b) (h : b.steps = 0 → Settled b) (hsteps : b'.steps = 0) : Settled b' := by
  cases hmove with
  | noted generator log =>
    have hb := h hsteps
    exact ⟨hb.stands, hb.apart, hb.claimed⟩
  | placed id process code start hload hfree hstart =>
    refine place_settled (h hsteps) ?_ ?_ process hload hfree hstart
    · rw [horder.rules_eq, hwrap]
    · rw [horder.size_eq]
      exact hsize
  | opened hloaded =>
    have hb := h hsteps
    exact ⟨hb.stands, hb.apart, hb.claimed⟩
  | turned hturn hopen hnext =>
    rw [conclude_steps, takeTurn_steps] at hsteps
    cases hsteps
  | stalled hturn hopen hnext =>
    have hb := h hsteps
    exact ⟨hb.stands, hb.apart, hb.claimed⟩

variable [WordSource G]

theorem settled_after {rules : Rules} {g : G} {b₀ : Battle G} (h₀ : ofRules rules g = .ok b₀)
    (hwrap : rules.placement = .wrapping) (hsize : (rules.coreSize : Int) ≤ Int64.maxValue.toInt)
    (requests : List Request) (hsteps : (b₀.after requests).steps = 0) : Settled (b₀.after requests) := by
  have hboth := (replay_moves b₀ requests).preserves
    (P := fun b => Orderly rules b ∧ (b.steps = 0 → Settled b))
    (fun b b' hmove h => ⟨move_orderly hmove h.1, move_settled hwrap hsize hmove h.1 h.2⟩)
    ⟨orderly_ofRules h₀, fun _ => settled_ofRules h₀⟩
  exact hboth.2 hsteps

/-- only steps and runs execute instructions -/
theorem steps_after_of_idle (b : Battle G) {requests : List Request}
    (hidle : ∀ request ∈ requests, request ≠ .step ∧ ∀ budget, request ≠ .run budget) :
    (b.after requests).steps = b.steps := by
  induction requests generalizing b with
  | nil => rfl
  | cons request rest ih =>
    obtain ⟨⟨hstep, hrun⟩, hrest⟩ := List.forall_mem_cons.1 hidle
    rw [after_cons, ih _ hrest]
    rcases perform_cases b request with ⟨-, generator, id, process, code, start, -, -, -, h⟩ |
      ⟨-, ⟨generator, h⟩ | ⟨-, -, h⟩ | ⟨hplay, -⟩ | ⟨budget, hplay, -⟩⟩
    · rw [h]
      rfl
    · rw [h]
    · rw [h]
    · exact absurd hplay hstep
    · exact absurd hplay (hrun budget)

omit [WordSource G] in
/-- a start executes none -/
theorem idle_start {requests : List Request}
    (hidle : ∀ request ∈ requests, request ≠ .step ∧ ∀ budget, request ≠ .run budget) :
    ∀ request ∈ requests ++ [.start], request ≠ .step ∧ ∀ budget, request ≠ .run budget := by
  intro request hrequest
  rcases List.mem_append.1 hrequest with hbefore | hstart
  · exact hidle request hbefore
  · rw [List.mem_singleton.1 hstart]
    simp

/-- **Territory.** Where all cells that a program covers have to be free, and after any sequence of requests to a new
battle:
- no instruction was executed unless a step or a run was requested;
- if none was executed, the warriors are the programs loaded, in load order; each has one process, and its stamped code
  stands in the core, cell for cell, at consecutive addresses from the pointer of that process on; no two codes share a
  cell; and the claimed cells are as many as the cells of the programs together, which the core has room for.
The bound on the size says that the places of the core are signed words. -/
theorem territory_law {rules : Rules} {g : G} {b₀ : Battle G} (h₀ : ofRules rules g = .ok b₀)
    (hwrap : rules.placement = .wrapping) (hsize : (rules.coreSize : Int) ≤ Int64.maxValue.toInt)
    (requests : List Request) :
    let b := b₀.after requests
    let lengths := (b₀.loaded requests).map (·.code.length)
    ((∀ request ∈ requests, request ≠ .step ∧ ∀ budget, request ≠ .run budget) → b.steps = 0) ∧
    (b.steps = 0 →
      b.warriors.map Warrior.stamp = (b₀.loaded requests).map Loading.stamp ∧
      (∀ w ∈ b.warriors, ∃ pointer, w.processes = [pointer] ∧
        ∀ (i : Nat) (c : Cell), w.code[i]? = some c → b.core.read (pointer.toInt + i) = c) ∧
      b.warriors.Pairwise (Warrior.Apart b.core) ∧
      b.core.claimed = lengths.sum ∧ lengths.sum ≤ rules.coreSize) := by
  intro b lengths
  constructor
  · intro hidle
    have hnew : b₀.steps = 0 := by
      rw [(ofRules_ok h₀).2]
    rw [← hnew]
    exact steps_after_of_idle b₀ hidle
  · intro hsteps
    have hsettled : Settled b := settled_after h₀ hwrap hsize requests hsteps
    have hstamps : b.stamps = (b₀.loaded requests).map Loading.stamp := stamps_after_new h₀ requests
    have hlengths : b.warriors.map (·.code.length) = lengths := by
      have hcodes := congrArg (List.map fun stamp => stamp.2.length) hstamps
      simpa [stamps, Warrior.stamp, Loading.stamp, Loading.stamped, Function.comp_def] using hcodes
    have hclaimed : b.core.claimed = lengths.sum := by
      rw [hsettled.claimed, hlengths]
    refine ⟨hstamps, fun w hw => (hsettled.stands w hw).present, hsettled.apart, hclaimed, ?_⟩
    rw [← hclaimed, ← (orderly_after h₀ requests).size_eq]
    exact b.core.claimed_le

/-- a core of six cells, and draws of the places 0 and 2 -/
def sixCells : Battle Random.Counter :=
  { rules := { coreSize := 6 }, core := .blank 6, generator := ⟨0, 0x5555555555555556⟩ }

/-- four empty cells are loaded round the end, a jump is refused, and a bomb behind a jump fills the core -/
theorem territory_law_full :
    let requests : List Request :=
      [.loadAt 0 0 (List.replicate 4 Cell.empty) (-2), .start, .loadAt 1 0 [Cell.jmp 0] 6,
        .load 2 5 [Cell.jmp 0, Cell.data]]
    let b := sixCells.after requests
    ofRules sixCells.rules sixCells.generator = .ok sixCells ∧ sixCells.rules.placement = .wrapping ∧
      (sixCells.rules.coreSize : Int) ≤ Int64.maxValue.toInt ∧
      (sixCells.replay requests).1 = [.done, .done, .refused (.occupied 0), .loadedAt 2] ∧ b.steps = 0 ∧
      b.core.claimed = 6 ∧
      ∀ w ∈ b.warriors, ∃ pointer, w.processes = [pointer] ∧
        ∀ (i : Nat) (c : Cell), w.code[i]? = some c → b.core.read (pointer.toInt + i) = c := by
  intro requests b
  have hnew : ofRules sixCells.rules sixCells.generator = .ok sixCells := rfl
  have hsize : (sixCells.rules.coreSize : Int) ≤ Int64.maxValue.toInt := by decide
  have hreplies : (sixCells.replay requests).1 = [.done, .done, .refused (.occupied 0), .loadedAt 2] := by
    decide +kernel
  obtain ⟨hidle, hlaw⟩ := territory_law hnew rfl hsize requests
  have hsteps : b.steps = 0 := hidle (by simp [requests])
  obtain ⟨-, hpresent, -, hclaimed, -⟩ := hlaw hsteps
  refine ⟨hnew, rfl, hsize, hreplies, hsteps, hclaimed.trans ?_, hpresent⟩
  decide +kernel

end Battle

end CoreWar
