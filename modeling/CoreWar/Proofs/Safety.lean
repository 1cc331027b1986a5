/-
Safety: nothing is ever out of range.

Each operation of the engine that is not defined for all values needs a part of one invariant: the turn is a place in
the row of groups, the place of the next process and of the last one are places in the row of processes, an insertion
comes behind the last one, no row that a remainder is taken by is empty, a program starts inside the core and is not
longer than it. `Machine.InRange` is that invariant, stated on rows and places. It holds after every sequence of
requests, late loadings and caps of zero included, and the machine that puts every operation to its check is never
stopped.

- `checked_carries`: the checks that can arise hold, for a core of less than `2 ^ 62` cells.
- `safety_law`: the checked machine answers as the battle does, and ends in range.
-/
import CoreWar.Proofs.Simulation

namespace CoreWar

/-! ## The invariant -/

/-- the number of processes is within the rules, and the places are places of processes -/
structure Group.InRange {P : Type} (rules : Rules) (g : Group P) : Prop where
  size_pos : 1 ≤ g.processes.length
  size_le : g.processes.length ≤ max 1 rules.maxProcesses
  single : rules.splitProcesses = false → g.processes.length = 1
  cursor_lt : g.cursor < g.processes.length
  last_lt : g.last < g.processes.length
  cursor_eq : g.cursor = 0 ∨ g.cursor = g.last + 1

/-- the core has its size, ids differ, the turn is somebody's, and every group is in range -/
structure Machine.InRange {G P : Type} (rules : Rules) (s : Machine G P) : Prop where
  size_eq : s.core.size = rules.coreSize
  distinct : (s.groups.map (·.id)).Nodup
  turn_lt : ∀ turn, s.turn = some turn → turn < s.groups.length
  groups : ∀ g ∈ s.groups, g.InRange rules

theorem Warrior.Orderly.image_inRange {P : Type} {rules : Rules} {w : Warrior} (h : w.Orderly rules) (φ : Int64 → P) :
    (w.image φ).InRange rules where
  size_pos := by
    rw [w.length_image]
    exact Nat.one_le_of_lt w.rotation.last_lt_size
  size_le := by
    rw [w.length_image]
    exact h.size_le
  single := by
    rw [w.length_image]
    exact h.single
  cursor_lt := by
    rw [w.length_image]
    exact h.cursor_lt
  last_lt := by
    rw [w.length_image]
    exact w.rotation.last_lt_size
  cursor_eq := by
    show w.rotation.cursor = 0 ∨ w.rotation.cursor = w.rotation.last + 1
    cases hwrapped : w.rotation.wrapped with
    | true => exact Or.inl (if_pos hwrapped)
    | false => exact Or.inr (if_neg (by simp [hwrapped]))

namespace Battle

variable {G P : Type}

theorem Orderly.image_inRange {rules : Rules} {b : Battle G} (horder : b.Orderly rules) (hstanding : b.Standing)
    (φ : Int64 → P) : (b.image φ).InRange rules where
  size_eq := horder.size_eq
  distinct := by
    rw [ids_image]
    exact hstanding.distinct
  turn_lt := by
    intro turn hturn
    have hlt := hstanding.turn_lt turn hturn
    simpa [image] using hlt
  groups := by
    intro g hg
    obtain ⟨w, hw, rfl⟩ := List.mem_map.1 hg
    exact (horder.warriors w hw).image_inRange φ

end Battle

/-! ## The checked machine -/

/-- in a core of less than `2 ^ 62` cells, and while the count of the steps is a word, the checks that arise hold -/
theorem Check.Arises.holds {size limit : Nat} {c : Check} (h : c.Arises size limit) (hpos : 0 < size)
    (hsize : size < 1 <<< 62) (hlimit : limit < UInt64.size) : c.Holds := by
  have hmax : Int64.maxValue.toInt = 9223372036854775807 := rfl
  cases c with
  | index i length => exact h
  | insertion i length => exact h
  | remainder divisor => exact h
  | reduction divisor =>
    have heq : divisor = size := h
    exact ⟨by omega, by omega⟩
  | addition x y =>
    obtain ⟨hx, hy⟩ : x < size ∧ y ≤ size := h
    show (x : Int) + y ≤ Int64.maxValue.toInt
    omega
  | increment n =>
    have hlt : n < limit := h
    show n + 1 < UInt64.size
    omega
  | draw bound =>
    have heq : bound = size := h
    exact heq ▸ hpos

theorem Platform.checked_carries {size limit : Nat} (hpos : 0 < size) (hsize : size < 1 <<< 62)
    (hlimit : limit < UInt64.size) :
    Platform.checked.Carries id size limit where
  size_pos := hpos
  address _ := rfl
  check _ h := if_pos (h.holds hpos hsize hlimit)

/-- a core without cells has nothing to reduce an address by -/
example : Platform.checked.read (Core.blank 0) 5 = .error (.reduction 0) := rfl

theorem Platform.checked_follows {G : Type} [WordSource G] (b : Battle G) (requests : List Request) :
    Platform.checked.Follows id (b.after requests).steps b requests where
  turns _ ht := ⟨Battle.steps_lt_of_mem_turns ht, fun _ _ => rfl⟩
  starts _ _ := rfl

namespace Battle

variable {G : Type} [WordSource G]

/-- **Safety.** Carry out any sequence of requests on a new battle whose core has less than `2 ^ 62` cells, with less
than `2 ^ 64` steps. The machine that stops at every index, insertion, remainder, sum or count that is out of range, by
zero or overflowing is never stopped: it gives the replies of the battle, and what it ends with
- has the size of core it began with;
- has ids that all differ, and a turn, if it has one, that is the turn of one of its groups;
- has in each group from one up to `max 1 maxProcesses` processes, and one only if processes do not split;
- has in each group the places of the next process and of the last one among the processes, and the next one stands at
  the front or behind the last one.
Any address can then be read, and gives the cell that the battle has there. -/
theorem safety_law {rules : Rules} {g : G} {b₀ : Battle G} (h₀ : ofRules rules g = .ok b₀)
    (hsize : rules.coreSize < 1 <<< 62) (requests : List Request) (hsteps : (b₀.after requests).steps < UInt64.size) :
    ∃ s₀ s, Machine.ofRules rules g = .ok s₀ ∧
      Platform.checked.replay s₀ requests = .ok ((b₀.replay requests).1, s) ∧
      s = (b₀.after requests).image id ∧
      s.InRange rules ∧
      ∀ address, Platform.checked.read s.core address = .ok ((b₀.after requests).core.read address) := by
  obtain ⟨hpos, -⟩ := ofRules_ok h₀
  have hcarries := Platform.checked_carries hpos hsize hsteps
  obtain ⟨s₀, hs₀, hreplay⟩ := hcarries.replay_new h₀ rfl (Platform.checked_follows b₀ requests)
  have horder := orderly_after h₀ requests
  refine ⟨s₀, _, hs₀, hreplay, rfl, horder.image_inRange (standing_after h₀ requests) id, ?_⟩
  intro address
  exact hcarries.read_eq horder.size_eq address

/-- a core of eight cells in which a program may have two processes -/
def splitters : Battle Random.Counter :=
  { rules := { coreSize := 8, maxProcesses := 2 }, core := .blank 8, generator := ⟨0, 1⟩ }

/-- a program that splits to the farthest address and jumps back, and another one loaded while it plays -/
theorem safety_law_splitters :
    let split : List Cell := [{ op := .spl, a := ⟨Int64.maxValue - 6, some .direct⟩ }, Cell.jmp (-1)]
    let requests : List Request :=
      [.loadAt 0 0 split (-1), .loadAt 1 0 [Cell.jmp 0] (-5), .start, .run 9, .loadAt 2 0 [Cell.jmp 0] 1, .run 5]
    let b := splitters.after requests
    ofRules splitters.rules splitters.generator = .ok splitters ∧ splitters.rules.coreSize < 1 <<< 62 ∧ b.steps = 14 ∧
      ∃ s₀ s, Machine.ofRules splitters.rules splitters.generator = .ok s₀ ∧
        Platform.checked.replay s₀ requests = .ok ((splitters.replay requests).1, s) ∧ s.InRange splitters.rules ∧
        s.groups.map (·.processes.length) = [2, 1, 1] := by
  intro split requests b
  have hnew : ofRules splitters.rules splitters.generator = .ok splitters := rfl
  have hsteps : b.steps = 14 := by decide +kernel
  have hcount : b.steps < UInt64.size := Nat.lt_of_le_of_lt (Nat.le_of_eq hsteps) (by decide)
  obtain ⟨s₀, s, hs₀, hreplay, rfl, hrange, -⟩ := safety_law hnew (by decide) requests hcount
  exact ⟨hnew, by decide, hsteps, s₀, _, hs₀, hreplay, hrange, by decide +kernel⟩

end Battle

end CoreWar
