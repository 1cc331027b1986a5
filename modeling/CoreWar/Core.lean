/-
The core: a circular memory of cells.

Every integer is an address. It is reduced modulo the size of the core before use, so negative and very large addresses
name cells too. A core without cells has no addresses; reading it gives the empty cell and writing changes nothing.
-/
import CoreWar.Cell

namespace CoreWar

structure Core where
  cells : Array Cell
deriving DecidableEq, Repr

namespace Core

/-- a core of `size` empty cells -/
def blank (size : Nat) : Core := ⟨Array.replicate size Cell.empty⟩

def size (core : Core) : Nat := core.cells.size

/-- the place of an address among the cells: its remainder, never negative, by the size -/
def index (core : Core) (address : Int) : Nat := (address % (core.size : Int)).toNat

def read (core : Core) (address : Int) : Cell := core.cells.getD (core.index address) Cell.empty

def write (core : Core) (address : Int) (c : Cell) : Core :=
  ⟨core.cells.setIfInBounds (core.index address) c⟩

/-- overwrites the two fields of the cell at `address` -/
def setFields (core : Core) (address : Int) (fields : Int64 × Int64) : Core :=
  core.write address ((core.read address).setFields fields)

def isOccupied (core : Core) (address : Int) : Bool := !(core.read address).isEmpty

/-- writes cells at consecutive addresses from `start` on -/
def writeFrom (core : Core) (start : Int) : List Cell → Core
  | [] => core
  | c :: rest => (core.write start c).writeFrom (start + 1) rest

/-- the cells of `after` that differ from those of `before`, with their places, in ascending order -/
def changes (before after : Core) : List (Nat × Cell) :=
  after.size.foldRev (fun i _ rest =>
    let c := after.cells.getD i Cell.empty
    if before.cells.getD i Cell.empty = c then rest else (i, c) :: rest) []

@[simp] theorem size_blank (n : Nat) : (blank n).size = n := by
  simp [blank, size]

@[simp] theorem size_write (core : Core) (address : Int) (c : Cell) : (core.write address c).size = core.size := by
  simp [write, size]

@[simp] theorem size_setFields (core : Core) (address : Int) (fields : Int64 × Int64) :
    (core.setFields address fields).size = core.size := by
  simp [setFields]

@[simp] theorem size_writeFrom (core : Core) (start : Int) (code : List Cell) :
    (core.writeFrom start code).size = core.size := by
  induction code generalizing core start with
  | nil => rfl
  | cons c rest ih => simp [writeFrom, ih]

theorem index_lt (core : Core) (h : 0 < core.size) (address : Int) : core.index address < core.size := by
  have h₁ := Int.emod_nonneg address (b := (core.size : Int)) (by omega)
  have h₂ := Int.emod_lt_of_pos address (b := (core.size : Int)) (by omega)
  simp only [index]; omega

@[simp] theorem index_write (core : Core) (a b : Int) (c : Cell) : (core.write a c).index b = core.index b := by
  simp [index]

/-- a write is seen at exactly the addresses that name the same cell -/
theorem read_write (core : Core) (h : 0 < core.size) (a b : Int) (c : Cell) :
    (core.write a c).read b = if core.index a = core.index b then c else core.read b := by
  have hb := core.index_lt h b
  have hsize : core.size = core.cells.size := rfl
  simp only [read, index_write]
  simp only [write, Array.getD_eq_getD_getElem?, Array.getElem?_setIfInBounds]
  split
  · rename_i hab
    rw [← hab] at hb
    simp [← hsize, hb]
  · rfl

@[simp] theorem read_blank (n : Nat) (a : Int) : (blank n).read a = Cell.empty := by
  simp only [read, blank, Array.getD_eq_getD_getElem?, Array.getElem?_replicate]
  split <;> rfl

end Core

end CoreWar
