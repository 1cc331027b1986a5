/-
Contents: a core is a map on residues.

A core is a row of cells, and every integer is an address in it. Whatever is written to it and wherever, it is told by
a map that knows neither rows nor places: an address holds what the requests to its residue, taken in order, have made
of an empty cell. Requests to different residues have nothing to do with each other.

The place of an address is its remainder, never negative. On signed words it takes two steps, since there the remainder
has the sign of the address: a negative one has to be raised by the size. That this is right for every word, the least
and the greatest included, is shown on its own.

- `Core.wordRemainder`, `Core.wordIndex`, `Core.index_toInt`: the place of an address, computed on words.
- `Core.read_perform`, `Core.read_after`: what one request does to what is read at an address, and what many do.
- `Core.perform_comm`: requests to different residues commute.
- `Core.contents_law`: the core as a map.
-/
import Mathlib.Data.Int.ModEq
import CoreWar.Core.Access
import CoreWar.Proofs.Circle

namespace CoreWar

namespace Core

/-! ## Places on words -/

/-- the remainder on signed words, which has the sign of the number divided, raised if it is negative -/
def wordRemainder (address divisor : Int64) : Int64 :=
  let remainder := address % divisor
  if remainder < 0 then remainder + divisor else remainder

/-- the place of an address in a core of a given size, computed on words -/
def wordIndex (size : Nat) (address : Int64) : Nat := (wordRemainder address (Int64.ofNat size)).toUInt64.toNat

/-- the remainder that is never negative, from the one with the sign of the number divided -/
theorem emod_eq_tmod (a : Int) {n : Int} (hn : 0 < n) : a % n = if a.tmod n < 0 then a.tmod n + n else a.tmod n := by
  have hnonneg := Int.emod_nonneg a hn.ne'
  have hlt := Int.emod_lt_of_pos a hn
  have habs : (n.natAbs : Int) = n := Int.natAbs_of_nonneg hn.le
  rw [Int.tmod_eq_emod]
  split
  · rw [if_neg (by omega)]
    omega
  · rw [if_pos (by omega)]
    omega

theorem toInt_wordRemainder (address : Int64) {divisor : Int64} (hpos : 0 < divisor.toInt) :
    (wordRemainder address divisor).toInt = address.toInt % divisor.toInt := by
  have hlt := Int.emod_lt_of_pos address.toInt hpos
  have hnonneg := Int.emod_nonneg address.toInt hpos.ne'
  have hmax := divisor.toInt_lt
  have hsign : address % divisor < 0 ↔ address.toInt.tmod divisor.toInt < 0 := by
    rw [Int64.lt_iff_toInt_lt, Int64.toInt_mod]
    rfl
  rw [emod_eq_tmod _ hpos] at hlt hnonneg ⊢
  simp only [wordRemainder, hsign]
  split
  · rename_i hneg
    rw [if_pos hneg] at hlt hnonneg
    rw [Int64.toInt_add, Int64.toInt_mod, Int.bmod_eq_of_le (by omega) (by omega)]
  · rw [Int64.toInt_mod]

/-- on words the place of an address is what it is on integers -/
theorem index_toInt {core : Core} (hpos : 0 < core.size) (hmax : (core.size : Int) ≤ Int64.maxValue.toInt)
    (address : Int64) : core.index address.toInt = wordIndex core.size address := by
  have hmax' : Int64.maxValue.toInt = 2 ^ 63 - 1 := rfl
  have hsize : (Int64.ofNat core.size).toInt = core.size := Int64.toInt_ofNat_of_lt (by omega)
  have hremainder : (wordRemainder address (Int64.ofNat core.size)).toInt = address.toInt % core.size := by
    rw [toInt_wordRemainder address (by omega), hsize]
  have hnonneg : 0 ≤ wordRemainder address (Int64.ofNat core.size) := by
    rw [Int64.le_iff_toInt_le, hremainder]
    exact Int.emod_nonneg address.toInt (by omega)
  calc
    core.index address.toInt = (address.toInt % core.size).toNat := rfl
    _ = (wordRemainder address (Int64.ofNat core.size)).toInt.toNat := by rw [hremainder]
    _ = wordIndex core.size address := (Int64.toNat_toUInt64_of_le hnonneg).symm

/-! ## One request -/

/-- what a request makes of the cell that it names -/
def Access.leave (c : Cell) : Access → Cell
  | .write _ c' => c'
  | .setFields _ fields => c.setFields fields
  | .read _ | .index _ | .isOccupied _ | .size | .cells | .listing => c

/-- whether a request names an address modulo the size -/
def Access.Names (size : Nat) (b : Int) (request : Access) : Prop := ∃ a ∈ request.address?, a ≡ b [ZMOD size]

instance (size : Nat) (b : Int) : DecidablePred (Access.Names size b) := fun request =>
  inferInstanceAs (Decidable (∃ a ∈ request.address?, a ≡ b [ZMOD size]))

theorem Access.names_iff (request : Access) {a : Int} (ha : request.address? = some a) {size : Nat} {b : Int} :
    request.Names size b ↔ a ≡ b [ZMOD size] := by
  simp [Names, ha]

@[simp] theorem size_perform (core : Core) (request : Access) : (core.perform request).2.size = core.size := by
  cases request <;> simp [perform]

section

variable {core : Core} (hpos : 0 < core.size)
include hpos

/-- a request is seen at the addresses that it names, and nowhere else -/
theorem read_perform (request : Access) (b : Int) :
    (core.perform request).2.read b =
      if request.Names core.size b then Access.leave (core.read b) request else core.read b := by
  cases request with
  | write a c =>
    simp only [perform, core.read_write hpos, core.index_eq_index_iff hpos, Access.names_iff (.write a c) rfl,
      Int.ModEq, Access.leave]
  | setFields a fields =>
    simp only [perform, setFields, core.read_write hpos, core.index_eq_index_iff hpos,
      Access.names_iff (.setFields a fields) rfl, Int.ModEq, Access.leave]
    split
    · rename_i hsame
      rw [read_congr hsame]
    · rfl
  | read | index | isOccupied | size | cells | listing => simp [perform, Access.leave]

omit hpos in
/-- the answer to a request that names an address depends on the cell there -/
theorem answer_perform {core' : Core} (hsize : core.size = core'.size) {request : Access} {a : Int}
    (ha : request.address? = some a) (hread : core.read a = core'.read a) :
    (core.perform request).1 = (core'.perform request).1 := by
  cases request with
  | write | setFields => rfl
  | read =>
    obtain rfl := Option.some.inj ha
    simp only [perform, hread]
  | index => simp only [perform, index, hsize]
  | isOccupied =>
    obtain rfl := Option.some.inj ha
    simp only [perform, isOccupied, hread]
  | size | cells | listing => cases ha

/-- requests that name different residues commute, and none of them sees the other -/
theorem perform_comm {e f : Access} {a b : Int} (he : e.address? = some a) (hf : f.address? = some b)
    (hne : ¬ a ≡ b [ZMOD core.size]) :
    ((core.perform e).2.perform f).1 = (core.perform f).1 ∧
      ((core.perform e).2.perform f).2 = ((core.perform f).2.perform e).2 := by
  have hpose : 0 < (core.perform e).2.size := by rwa [size_perform]
  have hposf : 0 < (core.perform f).2.size := by rwa [size_perform]
  refine ⟨?_, ?_⟩
  · apply answer_perform (core.size_perform e) hf
    rw [read_perform hpos, if_neg]
    rwa [Access.names_iff e he]
  · -- an address can be named by one of the two requests, but not by both
    apply ext_read (by simp only [size_perform])
    intro x
    simp only [read_perform hpose, read_perform hposf, read_perform hpos, size_perform, Access.names_iff e he,
      Access.names_iff f hf]
    by_cases hx : a ≡ x [ZMOD core.size]
    · have hfx : ¬ b ≡ x [ZMOD core.size] := fun h => hne (hx.trans h.symm)
      simp only [if_pos hx, if_neg hfx]
    · simp only [if_neg hx]

end

/-! ## Many requests -/

/-- the core after requests -/
def after (core : Core) (requests : List Access) : Core :=
  requests.foldl (fun core request => (core.perform request).2) core

/-- what requests have made of an empty cell: those that name the address modulo the size, in order -/
def contents (size : Nat) (requests : List Access) (b : Int) : Cell :=
  (requests.filter (Access.Names size b)).foldl Access.leave Cell.empty

@[simp] theorem size_after (core : Core) (requests : List Access) : (core.after requests).size = core.size := by
  induction requests generalizing core with
  | nil => rfl
  | cons request rest ih => exact (ih _).trans (core.size_perform request)

/-- what is read after many requests: those to other residues can be left out -/
theorem read_after {core : Core} (hpos : 0 < core.size) (requests : List Access) (b : Int) :
    (core.after requests).read b =
      (requests.filter (Access.Names core.size b)).foldl Access.leave (core.read b) := by
  induction requests generalizing core with
  | nil => rfl
  | cons request rest ih =>
    -- the rest finds at `b` what the first request has left there
    have hstep : (core.after (request :: rest)).read b = ((core.perform request).2.after rest).read b := rfl
    rw [hstep, ih (by simpa using hpos), read_perform hpos, size_perform]
    by_cases hnames : request.Names core.size b
    · rw [if_pos hnames, List.filter_cons_of_pos (by simpa using hnames), List.foldl_cons]
    · rw [if_neg hnames, List.filter_cons_of_neg (by simpa using hnames)]

/-- **The contents law.** Take a core of any positive size that fits a signed word, and any requests to it, at any
addresses. No further request is refused.
- The place of an address can be computed on words, and a cell stands there.
- What is read at an address is what the requests to its residue have made of an empty cell, in their order: a write has
  replaced the cell, an overwriting of fields only these. The address is occupied iff that is not the empty cell.
- Addresses that differ by a multiple of the size cannot be told apart.
- Of two requests to different residues neither sees the other, and their order makes no difference to the core, now or
  after more requests. -/
theorem contents_law {size : Nat} (hpos : 0 < size) (hmax : (size : Int) ≤ Int64.maxValue.toInt)
    (requests : List Access) :
    let core := (blank size).after requests
    (∀ request, core.access request = .ok (core.perform request)) ∧
    (∀ b : Int64, core.index b.toInt = wordIndex size b ∧
      core.cells[wordIndex size b]? = some (contents size requests b.toInt)) ∧
    (∀ b : Int, core.read b = contents size requests b ∧
      (core.isOccupied b = true ↔ contents size requests b ≠ Cell.empty)) ∧
    (∀ a k : Int, core.read (a + k * size) = core.read a) ∧
    ∀ (e f : Access) (a b : Int), e.address? = some a → f.address? = some b → ¬ a ≡ b [ZMOD size] →
      ((core.perform e).2.perform f).1 = (core.perform f).1 ∧
        ∀ more, core.after (e :: f :: more) = core.after (f :: e :: more) := by
  intro core
  have hsize : core.size = size := by rw [size_after, size_blank]
  have hcore : 0 < core.size := hsize ▸ hpos
  have hread : ∀ b, core.read b = contents size requests b := by
    intro b
    rw [read_after (by rwa [size_blank]), size_blank, read_blank, contents]
  refine ⟨?_, ?_, ?_, ?_, ?_⟩
  · intro request
    rw [access, if_neg fun h => hcore.ne' h.2]
  · intro b
    have hindex : core.index b.toInt = wordIndex size b := by
      rw [index_toInt hcore (by rwa [hsize]), hsize]
    refine ⟨hindex, ?_⟩
    rw [← hindex, getElem?_cells (core.index_lt hcore _), ← hread]
    congr 1
    apply read_congr
    rw [core.natCast_index hcore, Int.emod_emod]
  · intro b
    refine ⟨hread b, ?_⟩
    rw [isOccupied, hread, Bool.not_eq_true', Bool.eq_false_iff, ne_eq, Cell.isEmpty_iff]
  · intro a k
    apply read_congr
    rw [hsize, Int.add_mul_emod_self_right]
  · intro e f a b he hf hne
    rw [← hsize] at hne
    obtain ⟨hanswer, hcomm⟩ := perform_comm hcore he hf hne
    refine ⟨hanswer, ?_⟩
    intro more
    exact congrArg (·.after more) hcomm

/-- the least and the greatest word name the same one of five cells, and minus one names another -/
theorem contents_law_extremes :
    let low := Int64.minValue.toInt
    let high := Int64.maxValue.toInt
    let core := (blank 5).after [.write low Cell.data, .setFields high (3, -4)]
    0 < 5 ∧ ((5 : Nat) : Int) ≤ high ∧ wordIndex 5 Int64.minValue = 2 ∧ ¬ low ≡ -1 [ZMOD (5 : Nat)] ∧
      core.cells[2]? = some (Cell.data.setFields (3, -4)) ∧ core.read (low + 1 * (5 : Nat)) = core.read low ∧
      core.isOccupied 2 = true ∧ core.isOccupied 3 = false ∧
      core.after [.write low (Cell.jmp 7), .write (-1) Cell.data] =
        core.after [.write (-1) Cell.data, .write low (Cell.jmp 7)] := by
  intro low high core
  let requests : List Access := [.write low Cell.data, .setFields high (3, -4)]
  have hpos : 0 < 5 := by decide
  have hmax : ((5 : Nat) : Int) ≤ high := by decide
  have hplace : wordIndex 5 Int64.minValue = 2 := by decide
  have hne : ¬ low ≡ -1 [ZMOD (5 : Nat)] := by decide
  have hlow : contents 5 requests low = Cell.data.setFields (3, -4) := by decide
  have htwo : contents 5 requests 2 = Cell.data.setFields (3, -4) := by decide
  have hthree : contents 5 requests 3 = Cell.empty := by decide
  obtain ⟨-, hwords, hread, hperiod, hcomm⟩ := contents_law hpos hmax requests
  refine ⟨hpos, hmax, hplace, hne, ?_, hperiod low 1, ?_, ?_, (hcomm _ _ low (-1) rfl rfl hne).2 []⟩
  · rw [← hplace, (hwords Int64.minValue).2, hlow]
  · rw [(hread 2).2, htwo]
    decide
  · rw [Bool.eq_false_iff, ne_eq, (hread 3).2, hthree]
    decide

end Core

end CoreWar
