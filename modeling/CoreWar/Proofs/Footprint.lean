/-
Footprints: which cells a loading at an address looks at, and which it writes.

The check walks up from the start by addresses that are not reduced, leaves some of them out, depending on the rules,
and reduces the one it reports. The writing walks up by addresses that are reduced one by one. Both are rows of places
`(start + i) % size` here: the writing takes one for each cell of the code, and the check those of the first `span`
cells. The rows differ only where a program need not find its cells free round the end of the core, and only there can a
loading overwrite a claimed cell.

- `Placement.span`: how many cells of a row must be free.
- `roomAt_iff_span`, `firstOccupied?_of_no_room`: the search of a row in terms of places.
- `cells_place`, `cells_place_of_ne`: the writing of a row in terms of places.
- `footprint_law`: what a loading at an address is answered with, and all that it changes.
-/
import CoreWar.Proofs.Refusals
import CoreWar.Roster

namespace CoreWar

/-- how many cells of a code of this length, counted from its start, must be free: all of them, or those in front of the
end of the core -/
def Placement.span (size start length : Nat) : Placement → Nat
  | .wrapping => length
  | .unwrapped => min (start + length) size - start

/-- the cells that are checked are the first ones -/
theorem Placement.lt_span_iff {size start length i : Nat} (placement : Placement) (hstart : start < size) :
    i < placement.span size start length ↔ i < length ∧ placement.checks size (start + i) = true := by
  cases placement with
  | wrapping => simp [span, checks]
  | unwrapped =>
    simp only [span, checks, decide_eq_true_eq]
    omega

namespace Core

theorem index_natCast_mod (core : Core) (n : Nat) : core.index n = n % core.size := by
  rw [index, ← Int.natCast_emod, Int.toNat_natCast]

variable {core : Core} (hpos : 0 < core.size)
include hpos

/-- the cell at an address, by its place -/
theorem getElem?_cells_mod (n : Nat) : core.cells[n % core.size]? = some (core.read n) := by
  rw [getElem?_cells (Nat.mod_lt n hpos), Int.natCast_emod, read_congr (Int.emod_emod_of_dvd n (Int.dvd_refl _))]

theorem isOccupied_eq_false_iff (n : Nat) :
    core.isOccupied n = false ↔ core.cells[n % core.size]? = some Cell.empty := by
  rw [getElem?_cells_mod hpos, isOccupied, Bool.not_eq_false', Cell.isEmpty_iff, Option.some.injEq]

end Core

namespace Battle

variable {G : Type} {b : Battle G} {start : Nat}

/-! ## The row that is searched -/

/-- there is room at a start iff the cells that must be free are -/
theorem roomAt_iff_span (hstart : start < b.core.size) (length : Nat) :
    b.RoomAt length start ↔
      ∀ i < b.rules.placement.span b.core.size start length,
        b.core.cells[(start + i) % b.core.size]? = some Cell.empty := by
  have hpos : 0 < b.core.size := Nat.zero_lt_of_lt hstart
  rw [RoomAt, Core.firstOccupied?_eq_none_iff]
  constructor
  · intro hfree i hi
    obtain ⟨hlt, hcheck⟩ := (Placement.lt_span_iff _ hstart).1 hi
    exact (Core.isOccupied_eq_false_iff hpos _).1 (hfree i hlt hcheck)
  · intro hfree i hlt hcheck
    have hi := (Placement.lt_span_iff _ hstart).2 ⟨hlt, hcheck⟩
    exact (Core.isOccupied_eq_false_iff hpos _).2 (hfree i hi)

/-- where there is no room, the search gives the place of the first of those cells that is claimed -/
theorem firstOccupied?_of_no_room (hstart : start < b.core.size) {length : Nat} (hroom : ¬ b.RoomAt length start) :
    ∃ i < b.rules.placement.span b.core.size start length,
      b.core.cells[(start + i) % b.core.size]? ≠ some Cell.empty ∧
      (∀ j < i, b.core.cells[(start + j) % b.core.size]? = some Cell.empty) ∧
      b.core.firstOccupied? b.rules.placement start length = some ((start + i) % b.core.size) := by
  have hpos : 0 < b.core.size := Nat.zero_lt_of_lt hstart
  obtain ⟨place, hfound⟩ := Option.ne_none_iff_exists'.1 hroom
  obtain ⟨i, hlt, hcheck, hclaimed, rfl, hbefore⟩ := Core.firstOccupied?_eq_some_iff.1 hfound
  have hi := (Placement.lt_span_iff _ hstart).2 ⟨hlt, hcheck⟩
  refine ⟨i, hi, ?_, ?_, ?_⟩
  · intro hempty
    rw [(Core.isOccupied_eq_false_iff hpos _).2 hempty] at hclaimed
    cases hclaimed
  · intro j hj
    -- what is checked in front of a cell that is checked are all cells in front of it
    have hcheck' := ((Placement.lt_span_iff _ hstart).1 (Nat.lt_trans hj hi)).2
    exact (roomAt_iff_span hstart i).1 hbefore j ((Placement.lt_span_iff _ hstart).2 ⟨hj, hcheck'⟩)
  · rw [hfound, Core.index_natCast_mod]

/-! ## The row that is written -/

section

variable {id : ProgramId} {process : ProcessId} {code : List Cell} (hfits : code.length ≤ b.core.size)
include hfits

/-- a place of the row holds the stamped cell -/
theorem cells_place {i : Nat} {c : Cell} (hc : code[i]? = some c) :
    (b.place id process code start).core.cells[(start + i) % b.core.size]? = some (c.ownedBy id process) := by
  have hi : i < code.length := (List.getElem?_eq_some_iff.1 hc).1
  have hsize : (b.place id process code start).core.size = b.core.size := Core.size_writeFrom ..
  have hcell : (code.map (Cell.ownedBy id process))[i]? = some (c.ownedBy id process) := by
    rw [List.getElem?_map, hc, Option.map_some]
  have hread := b.core.read_writeFrom_of_lt start (by rw [List.length_map]; exact hfits) hcell
  rw [← hsize, Core.getElem?_cells_mod (by rw [hsize]; omega), Int.natCast_add]
  exact congrArg some hread

/-- every other place holds what it held -/
theorem cells_place_of_ne {m : Nat}
    (hm : ∀ i < code.length, (start + i) % b.core.size ≠ m) :
    (b.place id process code start).core.cells[m]? = b.core.cells[m]? := by
  have hsize : (b.place id process code start).core.size = b.core.size := Core.size_writeFrom ..
  by_cases hin : m < b.core.size
  · have hpos : 0 < b.core.size := Nat.zero_lt_of_lt hin
    -- the offset of the place from the start is beyond the row
    have hback : (start + b.core.index ((m : Int) - start)) % b.core.size = m := by
      have hplace : (start + b.core.index ((m : Int) - start) : Int) % b.core.size = (m : Int) % b.core.size := by
        rw [b.core.natCast_index hpos, Int.add_emod_emod, show (start : Int) + (m - start) = m by omega]
      rw [← Core.index_natCast_mod, Int.natCast_add, Core.index_congr hplace, Core.index_natCast hin]
    have hout : code.length ≤ b.core.index ((m : Int) - start) := by
      apply Nat.le_of_not_lt
      intro hrow
      exact hm _ hrow hback
    have hlength : (code.map (Cell.ownedBy id process)).length = code.length := List.length_map _
    have hread := b.core.read_writeFrom start (hlength.symm ▸ hfits) m
    rw [List.getElem?_eq_none (hlength.symm ▸ hout), Option.getD_none] at hread
    rw [Core.getElem?_cells (hsize ▸ hin), Core.getElem?_cells hin]
    exact congrArg some hread
  · have hout : (b.place id process code start).core.cells.size ≤ m := by
      have hcells : (b.place id process code start).core.cells.size = b.core.size := hsize
      omega
    rw [Array.getElem?_eq_none hout, Array.getElem?_eq_none (Nat.le_of_not_lt hin)]

end

/-- where there is room, a claimed cell is written over only if it lies round the end of the core and the rules do not
ask for it to be free -/
theorem unwrapped_of_overwritten (hstart : start < b.core.size) {length i : Nat} (hlength : length ≤ b.core.size)
    (hroom : b.RoomAt length start) (hi : i < length)
    (hclaimed : b.core.cells[(start + i) % b.core.size]? ≠ some Cell.empty) :
    b.rules.placement = .unwrapped ∧ (start + i) % b.core.size + b.core.size < start + length := by
  have hout : ¬ i < b.rules.placement.span b.core.size start length := by
    intro hspan
    exact hclaimed ((roomAt_iff_span hstart length).1 hroom i hspan)
  cases hrules : b.rules.placement with
  | wrapping =>
    rw [hrules] at hout
    exact absurd hi hout
  | unwrapped =>
    simp only [hrules, Placement.span] at hout
    have hround : b.core.size ≤ start + i := by omega
    refine ⟨rfl, ?_⟩
    rw [Nat.mod_eq_sub_mod hround, Nat.mod_eq_of_lt (by omega)]
    omega

/-! ## Main result -/

variable [WordSource G]

/-- what becomes of a loading of loadable code depends on the search of its row alone -/
theorem perform_loadAt_of_loadable {id : ProgramId} {process : ProcessId} {code : List Cell} {address : Int}
    (hcheck : b.checkLoadable id code = .ok ()) :
    b.perform (.loadAt id process code address) =
      match b.core.firstOccupied? b.rules.placement (b.core.index address) code.length with
      | none => (.done, b.place id process code (b.core.index address))
      | some place => (.refused (.occupied place), b) := by
  simp only [perform, loadAt, hcheck, bind, Except.bind]
  cases b.core.firstOccupied? b.rules.placement (b.core.index address) code.length <;> rfl

/-- **Footprint.** Take any battle, any code that could be loaded into it and any address, let `start` be the address
reduced into the core, and the places of the code those from `start` on, round the end of the core:
- the loading is done iff the first `span` of its places are free, and otherwise it is refused with the first of them
  that is claimed, and nothing changes;
- if it is done, the code stands stamped at its places, every other cell is as it was, a live warrior with the code and
  with one process, at `start`, is added behind the others, and apart from the log nothing else changes;
- then a claimed cell was written over only if the rules leave out what lies round the end of the core, and only in
  front of the place where the code ends there.
The bound on the size says that the places of the core are signed words. -/
theorem footprint_law {b : Battle G} {id : ProgramId} {code : List Cell} (hload : b.Loadable id code)
    (process : ProcessId) (address : Int) :
    let size := b.core.size
    let start := (address % size).toNat
    let span := b.rules.placement.span size start code.length
    let place := fun i : Nat => (start + i) % size
    let answer := b.perform (.loadAt id process code address)
    let b' := answer.2
    (answer.1 = .done ↔ ∀ i < span, b.core.cells[place i]? = some Cell.empty) ∧
    (answer.1 ≠ .done → ∃ i < span, b.core.cells[place i]? ≠ some Cell.empty ∧
      (∀ j < i, b.core.cells[place j]? = some Cell.empty) ∧ answer = (.refused (.occupied (place i)), b)) ∧
    (answer.1 = .done →
      (b'.core.size = size ∧
        (∀ (i : Nat) (c : Cell), code[i]? = some c → b'.core.cells[place i]? = some (c.ownedBy id process)) ∧
        ∀ m, (∀ i < code.length, place i ≠ m) → b'.core.cells[m]? = b.core.cells[m]?) ∧
      (∃ w, b'.warriors = b.warriors ++ [w] ∧ w.id = id ∧ w.code = code.map (Cell.ownedBy id process) ∧
        w.alive = true ∧ w.processes = [Int64.ofNat start] ∧
        ((size : Int) ≤ Int64.maxValue.toInt → (Int64.ofNat start).toInt = start)) ∧
      b' = { b with core := b'.core, warriors := b'.warriors, log := b'.log } ∧
      ∀ i < code.length, b.core.cells[place i]? ≠ some Cell.empty →
        b.rules.placement = .unwrapped ∧ place i + size < start + code.length) := by
  intro size start span place answer b'
  have hcheck := loadable_iff.2 hload
  obtain ⟨-, hfits, -⟩ := hload
  have hstart : start < b.core.size := b.core.index_lt (size_pos_of_checkLoadable hcheck) address
  have hfree := roomAt_iff_span hstart code.length
  have hanswer : answer = _ := perform_loadAt_of_loadable hcheck
  by_cases hroom : b.RoomAt code.length start
  · -- the code is placed
    have hnone : b.core.firstOccupied? b.rules.placement (b.core.index address) code.length = none := hroom
    rw [hnone] at hanswer
    have hafter : b' = b.place id process code start := congrArg Prod.snd hanswer
    refine ⟨iff_of_true (congrArg Prod.fst hanswer) (hfree.1 hroom), ?_, fun _ => ⟨⟨?_, ?_, ?_⟩, ?_, ?_, ?_⟩⟩
    · intro hrefused
      exact absurd (congrArg Prod.fst hanswer) hrefused
    · rw [hafter]
      exact Core.size_writeFrom ..
    · intro i c hc
      rw [hafter]
      exact cells_place hfits hc
    · intro m hm
      rw [hafter]
      exact cells_place_of_ne hfits hm
    · rw [hafter]
      refine ⟨_, rfl, rfl, rfl, rfl, rfl, ?_⟩
      intro hsize
      have hmax : Int64.maxValue.toInt = 9223372036854775807 := rfl
      exact Int64.toInt_ofNat_of_lt (by omega)
    · rw [hafter]
      rfl
    · intro i hi hclaimed
      exact unwrapped_of_overwritten hstart hfits hroom hi hclaimed
  · -- the first claimed cell is reported
    obtain ⟨i, hi, hclaimed, hbefore, hfound⟩ := firstOccupied?_of_no_room hstart hroom
    rw [show b.core.firstOccupied? b.rules.placement (b.core.index address) code.length = _ from hfound] at hanswer
    have hrefused : answer.1 ≠ .done := by
      rw [hanswer]
      intro hdone
      cases hdone
    refine ⟨iff_of_false hrefused (mt hfree.2 hroom), fun _ => ⟨i, hi, hclaimed, hbefore, hanswer⟩, ?_⟩
    intro hdone
    exact absurd hdone hrefused

/-- five cells, of which the first two are taken by a program that jumps on the spot -/
def frontTaken (placement : Placement) : Battle Random.Counter :=
  { rules := { coreSize := 5, placement }
    core := ⟨#[(Cell.jmp 0).ownedBy 0 0, (Cell.jmp 0).ownedBy 0 0, Cell.empty, Cell.empty, Cell.empty]⟩
    generator := ⟨0, 1⟩
    warriors := [.load 0 (List.replicate 2 ((Cell.jmp 0).ownedBy 0 0)) 0] }

/-- a dwarf at -2 has its last two cells round the end of the core: it is refused for the first of them, or else takes
both -/
theorem footprint_law_round :
    let request : Request := .loadAt 1 7 Roster.dwarf (-2)
    let strict := frontTaken .wrapping
    let lax := frontTaken .unwrapped
    strict.Loadable 1 Roster.dwarf ∧ lax.Loadable 1 Roster.dwarf ∧
      strict.perform request = (.refused (.occupied 0), strict) ∧
      (lax.perform request).1 = .done ∧ (lax.perform request).2.core.cells[1]? = some (Cell.data.ownedBy 1 7) ∧
      lax.core.cells[1]? ≠ some Cell.empty ∧ 1 + 5 < 3 + Roster.dwarf.length := by
  intro request strict lax
  have hstrict : strict.Loadable 1 Roster.dwarf := loadable_iff.1 rfl
  have hlax : lax.Loadable 1 Roster.dwarf := loadable_iff.1 rfl
  have hfree : ∀ i < 2, strict.core.cells[(3 + i) % 5]? = some Cell.empty := by decide
  have htaken : strict.core.cells[(3 + 2) % 5]? ≠ some Cell.empty := by decide
  -- the places of the third and of the last cell
  have hthird : (fun i : Nat => ((-2 % (strict.core.size : Int)).toNat + i) % strict.core.size) 2 = 0 := by decide
  have hlast : (fun i : Nat => ((-2 % (lax.core.size : Int)).toNat + i) % lax.core.size) 3 = 1 := by decide
  obtain ⟨hiff, hrefused, -⟩ := footprint_law hstrict 7 (-2)
  obtain ⟨hiff', -, hdone⟩ := footprint_law hlax 7 (-2)
  have hlaxdone : (lax.perform request).1 = .done := hiff'.2 hfree
  obtain ⟨⟨-, hstands, -⟩, -, -, hover⟩ := hdone hlaxdone
  have hbomb := hstands 3 Cell.data rfl
  have hround := hover 3 (by decide) (by decide)
  rw [hlast] at hbomb hround
  refine ⟨hstrict, hlax, ?_, hlaxdone, hbomb, by decide, hround.2⟩
  obtain ⟨i, -, hclaimed, hbefore, hanswer⟩ := hrefused fun h => htaken (hiff.1 h 2 (by decide))
  have hfirst : i = 2 := by
    apply Nat.le_antisymm
    · apply Nat.le_of_not_lt
      intro hlate
      exact htaken (hbefore 2 hlate)
    · apply Nat.le_of_not_lt
      intro hearly
      exact hclaimed (hfree i hearly)
  rw [hfirst, hthird] at hanswer
  exact hanswer

end Battle

end CoreWar
