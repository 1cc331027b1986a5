/-
The circle: rows of cells at consecutive addresses.

A loading looks at the cells that its code will cover and then writes them. Both go up from the start and round the end
of the core, so a row of cells is a row of offsets from its start, taken modulo the size: a row that is not longer than
the core covers no cell twice, whatever address it starts at.

- `read_congr`, `ext_read`: a core is what can be read in it, at addresses modulo its size.
- `read_writeFrom`: after a row was written, a cell holds what was written at its offset, if the row reaches so far.
- `firstOccupied?_eq_none_iff`, `firstOccupied?_eq_some_iff`: what the search among the cells of a row comes to.
-/
import CoreWar.Battle.Loading

namespace CoreWar

namespace Core

/-! ## Addresses modulo the size -/

theorem natCast_index (core : Core) (h : 0 < core.size) (a : Int) : (core.index a : Int) = a % core.size := by
  have hnonneg := Int.emod_nonneg a (b := (core.size : Int)) (by omega)
  exact Int.toNat_of_nonneg hnonneg

theorem index_congr {core : Core} {a b : Int} (h : a % core.size = b % core.size) : core.index a = core.index b := by
  rw [index, index, h]

theorem index_eq_index_iff (core : Core) (h : 0 < core.size) {a b : Int} :
    core.index a = core.index b ↔ a % core.size = b % core.size := by
  refine ⟨fun heq => ?_, index_congr⟩
  rw [← core.natCast_index h a, ← core.natCast_index h b, heq]

theorem read_congr {core : Core} {a b : Int} (h : a % core.size = b % core.size) : core.read a = core.read b := by
  rw [read, read, index_congr h]

/-- a place below the size is its own index -/
theorem index_natCast {core : Core} {i : Nat} (h : i < core.size) : core.index i = i := by
  rw [index, Int.emod_eq_of_lt (by omega) (by omega), Int.toNat_natCast]

/-- the cells of a core are what is read at their places -/
theorem getElem?_cells {core : Core} {i : Nat} (h : i < core.size) : core.cells[i]? = some (core.read i) := by
  have hlt : i < core.cells.size := h
  simp [read, index_natCast h, hlt]

theorem ext_read {core core' : Core} (hsize : core.size = core'.size) (h : ∀ a, core.read a = core'.read a) :
    core = core' := by
  have hcells : core.cells = core'.cells := by
    apply Array.ext_getElem?
    intro i
    by_cases hi : i < core.size
    · rw [getElem?_cells hi, getElem?_cells (hsize ▸ hi), h]
    · have hi' : ¬ i < core'.size := hsize ▸ hi
      have hout : core.cells[i]? = none := Array.getElem?_eq_none (Nat.le_of_not_lt hi)
      rw [hout, Array.getElem?_eq_none (Nat.le_of_not_lt hi')]
  cases core
  cases core'
  exact congrArg Core.mk hcells

/-- going one back on the circle, from the front to its end -/
theorem index_sub_one (core : Core) (h : 0 < core.size) (a : Int) :
    core.index (a - 1) = if core.index a = 0 then core.size - 1 else core.index a - 1 := by
  have hindex := core.natCast_index h a
  have hlt := core.index_lt h a
  have hback : (a - 1) % core.size = ((core.index a : Int) - 1) % core.size := by rw [hindex, Int.emod_sub_emod]
  rw [index, hback]
  split
  · rename_i hzero
    have hround : ((core.index a : Int) - 1) % core.size = ((core.size : Int) - 1) % core.size := by
      rw [← Int.add_emod_right]
      congr 1
      omega
    rw [hround, Int.emod_eq_of_lt (by omega) (by omega)]
    omega
  · rw [Int.emod_eq_of_lt (by omega) (by omega)]
    omega

/-- the offset of an address from a start is zero iff both name the same cell -/
theorem index_sub_eq_zero_iff (core : Core) (h : 0 < core.size) (a start : Int) :
    core.index (a - start) = 0 ↔ core.index start = core.index a := by
  have hindex := core.natCast_index h (a - start)
  rw [core.index_eq_index_iff h, eq_comm (a := start % _), Int.emod_eq_emod_iff_emod_sub_eq_zero, ← hindex]
  omega

/-- an address is its offset from any start, counted from there -/
theorem read_add_index_sub (core : Core) (h : 0 < core.size) (start a : Int) :
    core.read (start + core.index (a - start)) = core.read a := by
  apply read_congr
  rw [core.natCast_index h, Int.add_emod_emod, show start + (a - start) = a by omega]

/-! ## Writing a row -/

@[simp] theorem index_writeFrom (core : Core) (start : Int) (code : List Cell) (a : Int) :
    (core.writeFrom start code).index a = core.index a := by
  rw [index, index, size_writeFrom]

/-- after a row was written, a cell holds what was written at its offset from the start, if the row reaches so far -/
theorem read_writeFrom (core : Core) (start : Int) {code : List Cell} (hlength : code.length ≤ core.size) (a : Int) :
    (core.writeFrom start code).read a = (code[core.index (a - start)]?).getD (core.read a) := by
  induction code generalizing core start with
  | nil => rfl
  | cons c rest ih =>
    rw [List.length_cons] at hlength
    have hpos : 0 < core.size := by omega
    have hstep : a - (start + 1) = a - start - 1 := by omega
    have hzero := core.index_sub_eq_zero_iff hpos a start
    rw [writeFrom, ih (core.write start c) (start + 1) (by rw [size_write]; omega), core.read_write hpos, index_write,
      hstep, core.index_sub_one hpos]
    by_cases hfirst : core.index (a - start) = 0
    · -- the rest of the row does not come round to the cell written first
      have hout : rest.length ≤ core.size - 1 := by omega
      rw [if_pos hfirst, if_pos (hzero.1 hfirst), hfirst, List.getElem?_eq_none hout]
      rfl
    · obtain ⟨i, hi⟩ := Nat.exists_eq_succ_of_ne_zero hfirst
      rw [if_neg hfirst, if_neg fun heq => hfirst (hzero.2 heq), hi]
      rfl

/-- the cells of a row that was written -/
theorem read_writeFrom_of_lt (core : Core) (start : Int) {code : List Cell} (hlength : code.length ≤ core.size)
    {i : Nat} {c : Cell} (hc : code[i]? = some c) : (core.writeFrom start code).read (start + i) = c := by
  have hi : i < code.length := (List.getElem?_eq_some_iff.1 hc).1
  have hoffset : core.index (start + i - start) = i := by
    rw [show start + i - start = (i : Int) by omega]
    exact index_natCast (by omega)
  rw [core.read_writeFrom start hlength, hoffset, hc, Option.getD_some]

/-- where a row of free cells is written, no claimed cell changes -/
theorem read_writeFrom_of_occupied {core : Core} {start : Int} {code : List Cell} (hlength : code.length ≤ core.size)
    (hfree : ∀ i < code.length, core.isOccupied (start + i) = false) {a : Int} (ha : core.isOccupied a = true) :
    (core.writeFrom start code).read a = core.read a := by
  rw [core.read_writeFrom start hlength]
  by_cases hi : core.index (a - start) < code.length
  · have hoccupied := hfree _ hi
    rw [isOccupied, core.read_add_index_sub (by omega), ← isOccupied, ha] at hoccupied
    cases hoccupied
  · rw [List.getElem?_eq_none (by omega), Option.getD_none]

/-! ## Searching a row -/

/-- a row is found free iff none of its cells that must be free is claimed -/
theorem firstOccupied?_eq_none_iff {core : Core} {placement : Placement} {start length : Nat} :
    core.firstOccupied? placement start length = none ↔
      ∀ i < length, placement.checks core.size (start + i) = true → core.isOccupied (start + i : Nat) = false := by
  induction length generalizing start with
  | zero => simp [firstOccupied?]
  | succ length ih =>
    have hstep (i : Nat) : start + 1 + i = start + (i + 1) := by omega
    rw [firstOccupied?]
    split
    · rename_i hclaimed
      obtain ⟨hcheck, hoccupied⟩ := Bool.and_eq_true_iff.1 hclaimed
      constructor
      · intro h
        cases h
      · intro h
        have hfree := h 0 (Nat.succ_pos length) hcheck
        rw [Nat.add_zero, hoccupied] at hfree
        cases hfree
    · rename_i hfirst
      rw [ih]
      constructor
      · intro h i hi hcheck
        cases i with
        | zero =>
          rw [Nat.add_zero] at hcheck ⊢
          simpa [hcheck] using hfirst
        | succ i =>
          rw [← hstep] at hcheck ⊢
          exact h i (by omega) hcheck
      · intro h i hi hcheck
        rw [hstep] at hcheck ⊢
        exact h (i + 1) (by omega) hcheck

/-- what a search finds is the first claimed cell of the row among those that must be free -/
theorem firstOccupied?_eq_some_iff {core : Core} {placement : Placement} {start length place : Nat} :
    core.firstOccupied? placement start length = some place ↔
      ∃ i < length, placement.checks core.size (start + i) = true ∧ core.isOccupied (start + i : Nat) = true ∧
        core.index (start + i : Nat) = place ∧ core.firstOccupied? placement start i = none := by
  induction length generalizing start with
  | zero => simp [firstOccupied?]
  | succ length ih =>
    have hstep (i : Nat) : start + 1 + i = start + (i + 1) := by omega
    rw [firstOccupied?]
    split
    · rename_i hclaimed
      obtain ⟨hcheck, hoccupied⟩ := Bool.and_eq_true_iff.1 hclaimed
      constructor
      · intro h
        exact ⟨0, Nat.succ_pos length, hcheck, hoccupied, Option.some.inj h, rfl⟩
      · rintro ⟨i, -, -, -, hplace, hbefore⟩
        cases i with
        | zero => exact congrArg some hplace
        | succ i => simp [firstOccupied?, hclaimed] at hbefore
    · rename_i hfirst
      rw [ih]
      constructor
      · rintro ⟨i, hi, hcheck, hoccupied, hplace, hbefore⟩
        rw [hstep] at hcheck hoccupied hplace
        refine ⟨i + 1, by omega, hcheck, hoccupied, hplace, ?_⟩
        rw [firstOccupied?, if_neg hfirst, hbefore]
      · rintro ⟨i, hi, hcheck, hoccupied, hplace, hbefore⟩
        cases i with
        | zero => exact absurd (Bool.and_eq_true_iff.2 ⟨hcheck, hoccupied⟩) hfirst
        | succ i =>
          rw [firstOccupied?, if_neg hfirst] at hbefore
          rw [← hstep] at hcheck hoccupied hplace
          exact ⟨i, by omega, hcheck, hoccupied, hplace, hbefore⟩

end Core

end CoreWar
