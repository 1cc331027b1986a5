/-
Relocation: a battle does not know where on the circle it is fought.

If every program is loaded `k` cells further on, everything that happens happens `k` cells further on. The pointers of
the two battles need not be `k` apart: a start is reduced into the core, so one of them may have gone round the end, and
from then on they differ by `k` modulo the size of the core only. That is enough as long as sums of pointers respect
residues, as in Residues: if the size divides `2 ^ 64`, or if nothing wraps around.

Places that must be free only up to the end of the core would tell where the end is, so all of a program's cells must
be free.

- `Likeness.shifted`: cores that are the same but for their place.
- `relocation_law`: the whole game, moved on.
-/
import CoreWar.Proofs.Lockstep
import CoreWar.Proofs.Residues

namespace CoreWar

/-- the same request for `k` cells further on, in a core of this size; a random loading names no place to be moved -/
inductive Request.Shifted (size : Nat) (k : Int) : Request → Request → Prop where
  | loadAt (id : ProgramId) (process : ProcessId) (code : List Cell) {address address' : Int}
      (haddress : address' % size = (address + k) % size) :
    Shifted size k (.loadAt id process code address) (.loadAt id process code address')
  | start : Shifted size k .start .start
  | step : Shifted size k .step .step
  | run (budget : Nat) : Shifted size k (.run budget) (.run budget)

theorem residue_add {size : Nat} {x y : Int64} (h : size ∣ UInt64.size ∨ Fits (x, y)) :
    residue size (x + y) = (residue size x + y.toInt) % size := by
  rcases h with hdvd | hfits
  · exact residue_add_of_dvd hdvd x y
  · have hsum := residue_add_of_fits size hfits
    exact hsum

theorem residue_ofNat {size place : Nat} (h : size ∣ UInt64.size ∨ (place : Int) ≤ Int64.maxValue.toInt) :
    residue size (.ofNat place) = (place : Int) % size := by
  rcases h with hdvd | hle
  · exact residue_ofNat_of_dvd hdvd place
  · exact residue_ofNat_of_le size hle

/-- the second pointer is `k` cells further on -/
def Ahead (size : Nat) (k : Int) (p p' : Int64) : Prop := p'.toInt % size = (p.toInt + k) % size

/-- pointers stay apart as they are when the same field is added to both -/
theorem Ahead.add {size : Nat} {k : Int} {p p' d : Int64} (h : Ahead size k p p')
    (hp : size ∣ UInt64.size ∨ Fits (p, d)) (hp' : size ∣ UInt64.size ∨ Fits (p', d)) :
    Ahead size k (p + d) (p' + d) := by
  have hsum : (p + d).toInt % size = (p.toInt + d.toInt) % size := by
    rw [← Int.emod_add_emod]
    exact residue_add hp
  have hsum' : (p' + d).toInt % size = (p'.toInt % size + d.toInt) % size := residue_add hp'
  unfold Ahead at h ⊢
  calc (p' + d).toInt % size = (p'.toInt % size + d.toInt) % size := hsum'
    _ = (p.toInt + k + d.toInt) % size := by rw [h, Int.emod_add_emod]
    _ = (p.toInt + d.toInt + k) % size := by rw [Int.add_right_comm]
    _ = ((p + d).toInt + k) % size := by rw [← Int.emod_add_emod, ← hsum, Int.emod_add_emod]

theorem Ahead.start {size : Nat} {k : Int} {s s' : Nat} (h : (s' : Int) % size = (s + k) % size)
    (hs : size ∣ UInt64.size ∨ (s : Int) ≤ Int64.maxValue.toInt)
    (hs' : size ∣ UInt64.size ∨ (s' : Int) ≤ Int64.maxValue.toInt) : Ahead size k (.ofNat s) (.ofNat s') := by
  have hstart : (Int64.ofNat s).toInt % size = (s : Int) % size := residue_ofNat hs
  have hstart' : (Int64.ofNat s').toInt % size = (s' : Int) % size := residue_ofNat hs'
  unfold Ahead
  rw [hstart', h, ← Int.emod_add_emod, ← hstart, Int.emod_add_emod]

/-- cores that are the same but for their place on the circle -/
def Likeness.shifted {size : Nat} (hpos : 0 < size) (k : Int) : Likeness size where
  shift := k
  move address := (address + k) % size
  rename := id
  Owners := Eq
  Pointers := Ahead size k
  Fits p := size ∣ UInt64.size ∨ CoreWar.Fits p
  Starts start := size ∣ UInt64.size ∨ (start : Int) ≤ Int64.maxValue.toInt
  Draws := False
  size_pos := hpos
  move_emod h := by rw [h, Int.emod_add_emod]
  rename_injective := Function.injective_id
  owners_program h := congrArg Owner.program h.symm
  pointers_address h := h
  pointers_add _ h hp hp' := h.add hp hp'
  pointers_start h hs hs' := .start h hs hs'
  shift_of_draws := False.elim

namespace Likeness

variable {size : Nat} {hpos : 0 < size} {k : Int}

theorem Cells.eq_of_shifted {c c' : Cell} (h : (shifted hpos k).Cells c c') : c' = c := by
  obtain ⟨op, a, b, owner⟩ := c
  obtain ⟨op', a', b', owner'⟩ := c'
  obtain ⟨rfl, rfl, rfl, howner⟩ := h
  cases howner with
  | none => rfl
  | some hown => rw [show _ = _ from hown]

theorem cells_refl (c : Cell) : (shifted hpos k).Cells c c := by
  refine ⟨rfl, rfl, rfl, ?_⟩
  cases c.owner with
  | none => exact .none
  | some o => exact .some rfl

variable (hpos) in
theorem requests_of_shifted {request request' : Request} (h : request.Shifted size k request') :
    (shifted hpos k).Requests request request' := by
  cases h with
  | loadAt id process code haddress => exact .loadAt (List.forall₂_same.2 fun c _ => cells_refl c) haddress
  | start => exact .start
  | step => exact .step
  | run budget => exact .run budget

end Likeness

namespace Battle

variable {G : Type}

/-- `b'` is `b` moved on by `k` cells -/
structure Relocated (size : Nat) (k : Int) (b b' : Battle G) : Prop where
  steps : b'.steps = b.steps
  turn : b'.turn = b.turn
  concluded : b'.concluded = b.concluded
  alive : b'.aliveIds = b.aliveIds
  outcome : b'.outcome = b.outcome
  faults : b'.faults = b.faults.map (FaultRecord.map id fun address => (address + k) % size)
  core_size : b'.core.size = b.core.size
  core : ∀ address, b'.core.read (address + k) = b.core.read address
  warriors : List.Forall₂ (fun w w' => w'.id = w.id ∧ w'.code = w.code ∧ w'.alive = w.alive ∧
    List.Forall₂ (Ahead size k) w.processes w'.processes) b.warriors b'.warriors

theorem relocated_of_alike {size : Nat} {hpos : 0 < size} {k : Int} {b b' : Battle G}
    (h : (Likeness.shifted hpos k).Battles b b') : b.Relocated size k b' where
  steps := h.steps
  turn := h.turn
  concluded := h.concluded
  alive := by
    have hids := Likeness.map_eq_of_alike h.living fun _ _ hw => hw.id
    exact congrArg ascendingIds hids
  outcome := by
    rw [h.outcome]
    cases b.outcome <;> rfl
  faults := h.faults
  core_size := h.core.size_eq
  core address := Likeness.Cells.eq_of_shifted (h.core.read rfl)
  warriors := h.warriors.imp fun w w' hw => by
    have hcode : w'.code = w.code := by
      have hcells := hw.code.imp fun _ _ hc => (Likeness.Cells.eq_of_shifted hc).symm
      exact (List.forall₂_eq_eq_eq ▸ hcells : w.code = w'.code).symm
    exact ⟨hw.id, hcode, hw.alive, hw.rotation.processes⟩

variable [WordSource G]

/-- what does not overflow may be added up and loaded -/
theorem admits_of_noOverflow {size : Nat} (hpos : 0 < size) (k : Int) {b : Battle G} {requests : List Request}
    (h : size ∣ UInt64.size ∨ b.NoOverflow requests) : (Likeness.shifted hpos k).Admits b requests := by
  rcases h with hdvd | hfits
  · exact ⟨fun _ _ _ _ => Or.inl hdvd, fun _ _ => Or.inl hdvd⟩
  · refine ⟨fun t ht p hp => Or.inr (hfits.turns t ht p hp), fun l hl => Or.inr ?_⟩
    have hend := hfits.ends l hl
    omega

/-- **Relocation.** Take two new battles under the same rules, by which all cells of a program must be free, and make
the same requests of both, but for the addresses to load at: in the second they are `k` further on, modulo the size of
the core. If the size divides `2 ^ 64`, or if no sum of pointers or addresses overflows in either battle, then all
answers are the same, with addresses moved on by `k`, and after any number of requests the second battle is the first
moved on by `k` cells. -/
theorem relocation_law {rules : Rules} {g g' : G} {b₀ b₀' : Battle G} (h₀ : ofRules rules g = .ok b₀)
    (h₀' : ofRules rules g' = .ok b₀') (hwrap : rules.placement = .wrapping) {k : Int}
    {requests requests' : List Request} (hshifted : List.Forall₂ (Request.Shifted rules.coreSize k) requests requests')
    (hfits : rules.coreSize ∣ UInt64.size ∨ b₀.NoOverflow requests ∧ b₀'.NoOverflow requests') :
    (b₀'.replay requests').1 =
        (b₀.replay requests).1.map (Reply.map id fun address => (address + k) % rules.coreSize) ∧
      ∀ n, (b₀.after (requests.take n)).Relocated rules.coreSize k (b₀'.after (requests'.take n)) := by
  obtain ⟨hpos, rfl⟩ := ofRules_ok h₀
  obtain ⟨-, rfl⟩ := ofRules_ok h₀'
  have hnew : (Likeness.shifted hpos k).Battles
      { rules, core := .blank rules.coreSize, generator := g }
      { rules, core := .blank rules.coreSize, generator := g' } :=
    ⟨rfl, Or.inl hwrap, .blank, .nil, rfl, rfl, rfl, rfl, False.elim⟩
  have hrequests := hshifted.imp fun _ _ hr => Likeness.requests_of_shifted hpos hr
  obtain ⟨hreplies, hbattles⟩ := Likeness.replay_alike hnew hrequests
    (admits_of_noOverflow hpos k (hfits.imp_right And.left))
    (admits_of_noOverflow hpos k (hfits.imp_right And.right))
  exact ⟨hreplies, fun n => relocated_of_alike (hbattles n)⟩

/-- seven cells further on in a core of ten, other programs go round the end, and the place that was taken is taken; in
a core of eight, jumps that overflow do no harm -/
theorem relocation_law_far :
    let plays : List Request :=
      [.loadAt 0 0 Roster.imp 0, .loadAt 1 0 Roster.dwarf (-4), .loadAt 2 0 Roster.imp 7, .start, .step, .run 30]
    let moved : List Request :=
      [.loadAt 0 0 Roster.imp 7, .loadAt 1 0 Roster.dwarf 3, .loadAt 2 0 Roster.imp (-6), .start, .step, .run 30]
    let jumps : List Request := [.loadAt 0 0 (List.replicate 7 (Cell.jmp Int64.maxValue)) 1, .start, .run 20]
    let farther : List Request := [.loadAt 0 0 (List.replicate 7 (Cell.jmp Int64.maxValue)) 4, .start, .run 20]
    (((farField 10).replay plays).1[2]? = some (.refused (.occupied 7)) ∧
      ((farField 10).replay moved).1[2]? = some (.refused (.occupied 4)) ∧
      ((farField 10).after plays).Relocated 10 7 ((farField 10).after moved)) ∧
    ¬ (farField 8).NoOverflow jumps ∧ ((farField 8).after jumps).Relocated 8 3 ((farField 8).after farther) := by
  intro plays moved jumps farther
  have hplays : (farField 10).NoOverflow plays := by decide +kernel
  have hmoved : (farField 10).NoOverflow moved := by decide +kernel
  have hjumps : ¬ (farField 8).NoOverflow jumps := by decide +kernel
  have htaken : ((farField 10).replay plays).1[2]? = some (.refused (.occupied 7)) := by decide +kernel
  have hshifted : List.Forall₂ (Request.Shifted 10 7) plays moved :=
    .cons (.loadAt 0 0 _ (by decide)) (.cons (.loadAt 1 0 _ (by decide)) (.cons (.loadAt 2 0 _ (by decide))
      (.cons .start (.cons .step (.cons (.run 30) .nil)))))
  have hfarther : List.Forall₂ (Request.Shifted 8 3) jumps farther :=
    .cons (.loadAt 0 0 _ (by decide)) (.cons .start (.cons (.run 20) .nil))
  constructor
  · have hnew : ofRules (farField 10).rules (farField 10).generator = .ok (farField 10) := rfl
    obtain ⟨hreplies, hbattles⟩ := relocation_law hnew hnew rfl hshifted (Or.inr ⟨hplays, hmoved⟩)
    refine ⟨htaken, ?_, hbattles 6⟩
    rw [hreplies, List.getElem?_map, htaken]
    decide
  · have hnew : ofRules (farField 8).rules (farField 8).generator = .ok (farField 8) := rfl
    obtain ⟨-, hbattles⟩ := relocation_law hnew hnew rfl hfarther (Or.inl (by decide))
    exact ⟨hjumps, hbattles 3⟩

end Battle

end CoreWar
