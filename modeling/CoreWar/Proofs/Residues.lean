/-
Residues: pointers modulo the size of the core.

Pointers are signed words that wrap around at 64 bits, and nothing reduces them but an access to the core. So a battle
is the same as with pointers that are residues modulo the size of the core, computed in exact integers, as long as no
sum wraps around, or when wrapping around does not matter because the size divides `2 ^ 64`. Otherwise a sum that wraps
around is off by `2 ^ 64`, and names another cell.

- `residue_add_of_dvd`, `residue_add_of_fits`: the residue of a sum, in the two cases.
- `NoOverflow`: no sum of pointers or addresses wraps around in a sequence of requests.
- `residue_law`: the machine on residues does as the battle does, pointers modulo the size of the core.
-/
import CoreWar.Proofs.Simulation
import CoreWar.Roster

namespace CoreWar

/-! ## Sums modulo the size of the core -/

/-- the sum of the two words is a word -/
def Fits (p : Int64 × Int64) : Prop :=
  Int64.minValue.toInt ≤ p.1.toInt + p.2.toInt ∧ p.1.toInt + p.2.toInt ≤ Int64.maxValue.toInt

instance (p : Int64 × Int64) : Decidable (Fits p) := inferInstanceAs (Decidable (_ ∧ _))

/-- the pointer modulo the size of the core -/
def residue (size : Nat) (pointer : Int64) : Int := pointer.toInt % size

/-- wrapping around does not change a residue by a divisor of the number of words -/
theorem bmod_emod_of_dvd {size : Nat} (h : size ∣ UInt64.size) (x : Int) : x.bmod UInt64.size % size = x % size := by
  have hdvd : (size : Int) ∣ (UInt64.size : Int) := Int.natCast_dvd_natCast.2 h
  calc x.bmod UInt64.size % size = x.bmod UInt64.size % UInt64.size % size := (Int.emod_emod_of_dvd _ hdvd).symm
    _ = x % UInt64.size % size := by rw [Int.bmod_emod]
    _ = x % size := Int.emod_emod_of_dvd x hdvd

theorem residue_add_of_dvd {size : Nat} (h : size ∣ UInt64.size) (x y : Int64) :
    residue size (x + y) = (residue size x + y.toInt) % size := by
  have hsum : (x + y).toInt = (x.toInt + y.toInt).bmod UInt64.size := Int64.toInt_add x y
  calc (x + y).toInt % size = (x.toInt + y.toInt).bmod UInt64.size % size := by rw [hsum]
    _ = (x.toInt + y.toInt) % size := bmod_emod_of_dvd h _
    _ = (residue size x + y.toInt) % size := (Int.emod_add_emod _ _ _).symm

theorem residue_add_of_fits (size : Nat) {p : Int64 × Int64} (h : Fits p) :
    residue size (p.1 + p.2) = (residue size p.1 + p.2.toInt) % size := by
  obtain ⟨hlow, hhigh⟩ := h
  have hmin : Int64.minValue.toInt = -9223372036854775808 := rfl
  have hmax : Int64.maxValue.toInt = 9223372036854775807 := rfl
  -- a sum in range is not wrapped
  have hsum : (p.1 + p.2).toInt = p.1.toInt + p.2.toInt := by
    rw [Int64.toInt_add]
    exact Int.bmod_eq_of_le (by omega) (by omega)
  calc (p.1 + p.2).toInt % size = (p.1.toInt + p.2.toInt) % size := by rw [hsum]
    _ = (residue size p.1 + p.2.toInt) % size := (Int.emod_add_emod _ _ _).symm

theorem residue_ofNat_of_dvd {size : Nat} (h : size ∣ UInt64.size) (place : Nat) :
    residue size (Int64.ofNat place) = (place : Int) % size := by
  rw [residue, Int64.toInt_ofNat']
  exact bmod_emod_of_dvd h place

theorem residue_ofNat_of_le (size : Nat) {place : Nat} (h : (place : Int) ≤ Int64.maxValue.toInt) :
    residue size (Int64.ofNat place) = (place : Int) % size := by
  have hmax : Int64.maxValue.toInt = 9223372036854775807 := rfl
  rw [residue, Int64.toInt_ofNat_of_lt (by omega)]

namespace Platform

theorem residues_carries (limit : Nat) {size : Nat} (hpos : 0 < size) :
    (residues size).Carries (residue size) size limit where
  size_pos := hpos
  address _ := Int.emod_emod _ _
  check _ _ := rfl

end Platform

namespace Battle

variable {G : Type} [WordSource G]

/-- while the requests are carried out, no sum of pointers or addresses wraps around: none of those a turn computes, and
not the one that gives the end of a program that is loaded -/
structure NoOverflow (b : Battle G) (requests : List Request) : Prop where
  turns : ∀ t ∈ b.turns requests, ∀ p ∈ t.sums, Fits p
  ends : ∀ l ∈ b.loaded requests, (l.start : Int) + l.code.length ≤ Int64.maxValue.toInt

instance (b : Battle G) (requests : List Request) : Decidable (b.NoOverflow requests) :=
  decidable_of_iff
    (((b.turns requests).all fun t => t.sums.all fun p => decide (Fits p)) = true ∧
      ((b.loaded requests).all fun l => decide ((l.start : Int) + l.code.length ≤ Int64.maxValue.toInt)) = true)
    ⟨fun h => ⟨by simpa using h.1, by simpa using h.2⟩, fun h => ⟨by simpa using h.turns, by simpa using h.ends⟩⟩

/-- the machine on residues follows a battle that does not overflow, and every battle whose core has a size that divides
`2 ^ 64`, the number of words -/
theorem residues_follows {size : Nat} {b : Battle G} {requests : List Request}
    (h : size ∣ UInt64.size ∨ b.NoOverflow requests) :
    (Platform.residues size).Follows (residue size) (b.after requests).steps b requests := by
  rcases h with hdvd | hfits
  · exact ⟨fun t ht => ⟨steps_lt_of_mem_turns ht, fun p _ => (residue_add_of_dvd hdvd p.1 p.2).symm⟩,
      fun l _ => (residue_ofNat_of_dvd hdvd l.start).symm⟩
  · refine ⟨fun t ht => ⟨steps_lt_of_mem_turns ht, fun p hp => ?_⟩, fun l hl => ?_⟩
    · exact (residue_add_of_fits size (hfits.turns t ht p hp)).symm
    · have hend := hfits.ends l hl
      exact (residue_ofNat_of_le size (by omega)).symm

/-- **Residues.** Take the machine whose pointers are residues modulo the size of the core, computed in exact integers,
and give it the rules and the generator of a new battle. If the size divides `2 ^ 64`, or if no sum of pointers or
addresses overflows in the battle, then the machine answers every request as the battle does, and ends with the same
core, cell for cell, the same programs in the same order, alive or dead as in the battle, the same count of steps,
outcome and faults, and with the pointers of the battle modulo the size. -/
theorem residue_law {rules : Rules} {g : G} {b₀ : Battle G} (h₀ : ofRules rules g = .ok b₀) (requests : List Request)
    (h : rules.coreSize ∣ UInt64.size ∨ b₀.NoOverflow requests) :
    let b := b₀.after requests
    ∃ s₀ s, Machine.ofRules rules g = .ok s₀ ∧
      ((Platform.residues rules.coreSize).replay s₀ requests).run = ((b₀.replay requests).1, s) ∧
      s.core = b.core ∧ s.groups.map (·.id) = b.warriors.map (·.id) ∧
      s.groups.map (·.alive) = b.warriors.map (·.alive) ∧ s.steps = b.steps ∧ s.outcome = b.outcome ∧
      s.faults = b.faults ∧
      s.groups.map (·.processes) =
        b.warriors.map fun w => w.processes.map fun pointer => pointer.toInt % (rules.coreSize : Int) := by
  intro b
  obtain ⟨hpos, -⟩ := ofRules_ok h₀
  have hcarries := Platform.residues_carries b.steps hpos
  obtain ⟨s₀, hs₀, hreplay⟩ := hcarries.replay_new h₀ rfl (residues_follows h)
  refine ⟨s₀, b.image (residue rules.coreSize), hs₀, congrArg Id.run hreplay, rfl, ids_image b, ?_, rfl,
    outcome_image b, rfl, ?_⟩
  · simp only [image, List.map_map]
    rfl
  · simp only [image, List.map_map]
    rfl

/-- a battle for a core of this size -/
def farField (size : Nat) : Battle Random.Counter :=
  { rules := { coreSize := size }, core := .blank size, generator := ⟨0, 1⟩ }

/-- in a core of eight cells, jumps that overflow do no harm; in a core of ten, an imp and a dwarf do not overflow -/
theorem residue_law_far :
    let jumps : List Request :=
      [.loadAt 0 0 (List.replicate 7 (Cell.jmp Int64.maxValue)) 1, .loadAt 1 0 [Cell.jmp 0] 0, .start, .run 20]
    let plays : List Request :=
      [.load 0 0 Roster.imp, .loadAt 1 0 Roster.dwarf (-4), .start, .run 30, .loadAt 2 0 Roster.imp 4, .run 30]
    (∃ s₀ s, Machine.ofRules (farField 8).rules (farField 8).generator = .ok s₀ ∧
      ((Platform.residues 8).replay s₀ jumps).run = (((farField 8).replay jumps).1, s) ∧
      s.core = ((farField 8).after jumps).core ∧ ¬ (farField 8).NoOverflow jumps) ∧
    ∃ s₀ s, Machine.ofRules (farField 10).rules (farField 10).generator = .ok s₀ ∧
      ((Platform.residues 10).replay s₀ plays).run = (((farField 10).replay plays).1, s) ∧
      s.core = ((farField 10).after plays).core ∧ (farField 10).NoOverflow plays := by
  intro jumps plays
  have hover : ¬ (farField 8).NoOverflow jumps := by decide +kernel
  have hfits : (farField 10).NoOverflow plays := by decide +kernel
  constructor
  · have hnew : ofRules (farField 8).rules (farField 8).generator = .ok (farField 8) := rfl
    obtain ⟨s₀, s, hs₀, hreplay, hcore, -⟩ := residue_law hnew jumps (Or.inl (by decide))
    exact ⟨s₀, s, hs₀, hreplay, hcore, hover⟩
  · have hnew : ofRules (farField 10).rules (farField 10).generator = .ok (farField 10) := rfl
    obtain ⟨s₀, s, hs₀, hreplay, hcore, -⟩ := residue_law hnew plays (Or.inr hfits)
    exact ⟨s₀, s, hs₀, hreplay, hcore, hfits⟩

/-- in a core of ten cells, a jump that overflows leads to another cell than its residue: two cells on from the origin,
and not eight -/
example :
    let jump : List Request := [.loadAt 0 0 [Cell.jmp Int64.maxValue] 1, .start, .run 1]
    let machine : Machine Random.Counter Int :=
      { rules := (farField 10).rules, core := (farField 10).core, generator := (farField 10).generator }
    ((farField 10).after jump).warriors.map (·.processes.map (residue 10)) = [[2]] ∧
      ((Platform.residues 10).replay machine jump).run.2.groups.map (·.processes) = [[8]] := by
  decide +kernel

end Battle

end CoreWar
