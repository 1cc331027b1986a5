/-
The imp: it beats everything that cannot write.

An imp copies its only instruction one cell ahead and goes there. Among bystanders nothing else is written, so the cell
it is about to execute is always a copy of its own, and it lives for ever, even where its pointer wraps around. After as
many turns of its own as the core has cells, less one, the copies cover the core. From then on every other program is
killed by its next turn, whichever cell that executes. The imp misses none of its turns, and nobody has two in a round:
the game is over before the clock has shown as many rounds as the core has cells.

- `Imp.At.turn_self`, `Imp.At.turn_other`: the imp's turn, and everybody else's.
- `Imp.Walks`: what keeps the imp alive; kept by every step.
- `Imp.Advance`: how far the imp has got by a slot of the clock; `Advance.step`: kept by every turn, as long as the
  copies do not overtake each other.
- `imp_law`: the imp among bystanders, from the start to its win.
-/
import CoreWar.Proofs.Budgets
import CoreWar.Proofs.Bystanders
import CoreWar.Proofs.Clock
import CoreWar.Proofs.Territory
import CoreWar.Roster

namespace CoreWar

namespace Imp

variable {G : Type}

/-- the imp's instruction, stamped -/
def cell (owner : Owner) : Cell :=
  { op := .mov, a := ⟨0, some .direct⟩, b := ⟨1, some .direct⟩, owner := some owner }

/-- the imp, with its process at the pointer -/
def warrior (owner : Owner) (pointer : Int64) : Warrior := .load owner.program [cell owner] pointer

/-! ## One turn -/

/-- the imp stands at the place in the row, and at the pointer there is a copy of its instruction -/
structure At (owner : Owner) (place : Nat) (pointer : Int64) (b : Battle G) : Prop where
  stands : b.warriors[place]? = some (warrior owner pointer)
  ready : b.core.read pointer.toInt = cell owner

section

variable {owner : Owner} {place : Nat} {pointer : Int64} {b : Battle G} (h : At owner place pointer b)
include h

/-- the instruction stores a copy of itself one cell ahead -/
theorem At.effect_eq :
    b.core.effect b.rules (warrior owner pointer).next.2 (warrior owner pointer).next.1 =
      .ok (.store (pointer + 1) (cell owner)) := by
  have hsource : b.core.resolve pointer (cell owner) .a = .ok { address := pointer + 0 } := rfl
  have htarget : b.core.resolve pointer (cell owner) .b = .ok { address := pointer + 1 } := rfl
  have hexec : Core.Execution b.core b.rules (warrior owner (pointer + 1)) pointer (b.core.read pointer.toInt)
      (.ok (.store (pointer + 1) (b.core.read (pointer + 0).toInt))) := by
    rw [h.ready]
    exact .mov rfl rfl hsource htarget
  have heffect := hexec.effect_eq
  rw [Int64.add_zero, h.ready] at heffect
  exact heffect

theorem At.coreAfter_eq : b.coreAfter (warrior owner pointer) = b.core.write (pointer + 1).toInt (cell owner) := by
  rw [Battle.coreAfter, h.effect_eq]
  rfl

theorem At.executed_eq : b.executed (warrior owner pointer) = warrior owner (pointer + 1) := by
  rw [Battle.executed, h.effect_eq]
  rfl

theorem At.alive : b.AliveAt place := ⟨warrior owner pointer, h.stands, rfl⟩

/-- its turn takes the imp to the copy it makes -/
theorem At.turn_self (hpos : 0 < b.core.size) :
    At owner place (pointer + 1) (b.takeTurn (warrior owner pointer) place).conclude.2 := by
  obtain ⟨hlt, -⟩ := List.getElem?_eq_some_iff.1 h.stands
  refine ⟨?_, ?_⟩
  · rw [Battle.conclude_warriors, Battle.takeTurn_warriors, h.executed_eq, List.getElem?_set_self hlt]
  · rw [Battle.conclude_core, Battle.takeTurn_core, h.coreAfter_eq, b.core.read_write hpos, if_pos rfl]

/-- the turn of a bystander does not concern it -/
theorem At.turn_other {i : Nat} {w : Warrior} (hne : i ≠ place) (hsame : b.coreAfter w = b.core) :
    At owner place pointer (b.takeTurn w i).conclude.2 := by
  refine ⟨?_, ?_⟩
  · rw [Battle.conclude_warriors, Battle.takeTurn_warriors, List.getElem?_set_ne hne, h.stands]
  · rw [Battle.conclude_core, Battle.takeTurn_core, hsame, h.ready]

/-- everybody else has an id of its own -/
theorem At.id_ne (hdistinct : b.DistinctIds) {i : Nat} {w : Warrior} (hne : i ≠ place) (hw : b.warriors[i]? = some w) :
    w.id ≠ owner.program := by
  intro hid
  apply hne
  exact hdistinct.place_eq hw h.stands hid

end

/-! ## The imp never dies -/

/-- among bystanders, the imp is about to execute a copy of its instruction -/
structure Walks (owner : Owner) (place : Nat) (b : Battle G) : Prop where
  standing : b.Standing
  writer : b.SoleWriter owner.program
  here : ∃ pointer, At owner place pointer b

/-- bookkeeping and openings do not concern the imp -/
theorem Walks.move {owner : Owner} {place : Nat} {b b' : Battle G} (h : Walks owner place b) (hmove : Battle.Move b b')
    (hwarriors : b'.warriors = b.warriors) (hcore : b'.core = b.core) : Walks owner place b' := by
  obtain ⟨pointer, hat⟩ := h.here
  refine ⟨Battle.move_standing hmove h.standing, h.writer.move hmove hwarriors, pointer, ?_, ?_⟩
  · rw [hwarriors, hat.stands]
  · rw [hcore, hat.ready]

theorem Walks.step {owner : Owner} {place : Nat} {b : Battle G} (h : Walks owner place b) :
    Walks owner place b.step.2 := by
  refine ⟨Battle.moves_standing b.step_moves h.standing, h.writer.step, ?_⟩
  obtain ⟨pointer, hat⟩ := h.here
  rcases b.step_cases with ⟨-, hstep⟩ | ⟨-, hstep⟩ | ⟨turn, -, -, -, hstep⟩ | ⟨turn, w, i, -, -, hnext, hstep⟩
  · rw [hstep]
    exact ⟨pointer, hat.stands, hat.ready⟩
  · rw [hstep]
    exact ⟨pointer, hat⟩
  · rw [hstep]
    exact ⟨pointer, hat.stands, hat.ready⟩
  · obtain ⟨hw, -, -⟩ := Battle.nextLive?_eq_some hnext
    rw [hstep]
    by_cases hi : i = place
    · subst hi
      obtain rfl : w = warrior owner pointer := Option.some.inj (hw.symm.trans hat.stands)
      exact ⟨pointer + 1, hat.turn_self h.writer.traced.size_pos⟩
    · have hid := hat.id_ne h.standing.distinct hi hw
      exact ⟨pointer, hat.turn_other hi (h.writer.coreAfter_eq hid)⟩

/-! ## How far the imp has got -/

/-- by the slot, the imp has had one turn for each of its slots before, and there are copies from its start up to its
pointer; whoever else has had a slot since they could cover the core is dead -/
structure Advance (owner : Owner) (place start slot made : Nat) (b : Battle G) : Prop where
  clock : b.Clock slot
  steps_le : b.steps ≤ slot
  turns : ∀ round, round < made ↔ round * b.warriors.length + place < slot
  here : At owner place (Int64.ofNat (start + made)) b
  copies : ∀ offset ≤ made, b.core.read (start + offset : Nat) = cell owner
  overrun : ∀ other, other ≠ place → (b.core.size - 1) * b.warriors.length + other < slot → ¬ b.AliveAt other

namespace Advance

variable {owner : Owner} {place start slot made : Nat} {b : Battle G} (h : Advance owner place start slot made b)
include h

/-- as long as somebody else is alive, the clock has not shown as many rounds as the core has cells -/
theorem slot_lt (hstanding : b.Standing) (hpos : 0 < b.core.size) (htwo : 2 ≤ b.living.length) :
    slot < b.core.size * b.warriors.length := by
  obtain ⟨w, hliving, hid⟩ := Battle.exists_other_alive hstanding.distinct htwo owner.program
  obtain ⟨hw, halive⟩ := Battle.mem_living.1 hliving
  obtain ⟨other, hother⟩ := List.mem_iff_getElem?.1 hw
  have hne : other ≠ place := by
    intro heq
    rw [heq, h.here.stands] at hother
    apply hid
    rw [← Option.some.inj hother]
    rfl
  have hlt : other < b.warriors.length := (List.getElem?_eq_some_iff.1 hother).1
  have hslot : slot ≤ (b.core.size - 1) * b.warriors.length + other := by
    by_contra hover
    exact h.overrun other hne (Nat.lt_of_not_le hover) ⟨w, hother, halive⟩
  calc slot ≤ (b.core.size - 1) * b.warriors.length + other := hslot
    _ < (b.core.size - 1) * b.warriors.length + b.warriors.length := by omega
    _ = b.core.size * b.warriors.length := by rw [← Nat.succ_mul, Nat.succ_eq_add_one, Nat.sub_add_cancel hpos]

/-- by then the imp has not gone round the core more than once -/
theorem made_le (hslot : slot < b.core.size * b.warriors.length) : made ≤ b.core.size := by
  by_contra hmore
  have hlast := (h.turns b.core.size).1 (Nat.lt_of_not_le hmore)
  omega

/-- with one copy for each cell, all cells are copies -/
theorem covered (hpos : 0 < b.core.size) (hsize : b.core.size ≤ made + 1) (a : Int) : b.core.read a = cell owner := by
  have hlt := b.core.index_lt hpos (a - start)
  have hcopy := h.copies (b.core.index (a - start)) (by omega)
  rw [Int.natCast_add, b.core.read_add_index_sub hpos] at hcopy
  exact hcopy

section

variable {used : Nat} (hvacant : b.Vacant slot used)
include hvacant

/-- the imp's next slot is not left out -/
theorem used_le : used ≤ made * b.warriors.length + place := by
  apply hvacant.le_of_alive h.here.alive
  by_contra hbefore
  have hmade := (h.turns made).2 (Nat.lt_of_not_le hbefore)
  omega

/-- the imp uses its next slot -/
theorem used_eq (hslot : slot ≤ used) (hi : used % b.warriors.length = place) :
    used = made * b.warriors.length + place := by
  have hround : used / b.warriors.length * b.warriors.length + place = used := by
    rw [← hi, Nat.div_add_mod']
  have hdone : ¬ used / b.warriors.length < made := by
    intro hmade
    have hbefore := (h.turns (used / b.warriors.length)).1 hmade
    omega
  have hrounds : made * b.warriors.length ≤ used / b.warriors.length * b.warriors.length :=
    Nat.mul_le_mul_right _ (Nat.le_of_not_lt hdone)
  have hupto := h.used_le hvacant
  omega

/-- who has a slot after the copies could cover the core executes one of them, and dies -/
theorem overrun_turned (hstanding : b.Standing) (hpos : 0 < b.core.size) {i : Nat} {w : Warrior}
    (hi : used % b.warriors.length = i) (hw : b.warriors[i]? = some w) {other : Nat} (hne : other ≠ place)
    (hlate : (b.core.size - 1) * b.warriors.length + other < used + 1) :
    ¬ (b.takeTurn w i).conclude.2.AliveAt other := by
  rintro ⟨v, hv, halive⟩
  rw [Battle.conclude_warriors, Battle.takeTurn_warriors] at hv
  by_cases hown : i = other
  · subst hown
    obtain ⟨hlt, -⟩ := List.getElem?_eq_some_iff.1 hw
    obtain rfl : b.executed w = v := Option.some.inj ((List.getElem?_set_self hlt).symm.trans hv)
    have hsize : b.core.size ≤ made + 1 := by
      by_contra hfew
      have hupto := h.used_le hvacant
      have hplace := h.here.alive.lt
      have hrounds : (made + 1) * b.warriors.length ≤ (b.core.size - 1) * b.warriors.length :=
        Nat.mul_le_mul_right _ (by omega)
      rw [Nat.succ_mul] at hrounds
      omega
    have hforeign : (b.core.read w.next.1.toInt).ownerProgram ≠ some w.id := by
      rw [h.covered hpos hsize]
      intro howner
      exact h.here.id_ne hstanding.distinct hne hw (Option.some.inj howner).symm
    rw [Battle.executed_of_foreign hforeign] at halive
    cases halive
  · rw [List.getElem?_set_ne hown] at hv
    by_cases hbefore : (b.core.size - 1) * b.warriors.length + other < slot
    · exact h.overrun other hne hbefore ⟨v, hv, halive⟩
    · -- a slot that was not left out, and is not that of `w`
      have hlt : other < b.warriors.length := (List.getElem?_eq_some_iff.1 hv).1
      have hreached := hvacant.le_of_alive ⟨v, hv, halive⟩ (Nat.le_of_not_lt hbefore)
      apply hown
      rw [← hi, Nat.le_antisymm hreached (by omega), Nat.mul_add_mod_of_lt hlt]

/-- the imp's turn makes one more copy, and goes there -/
theorem turned_self (hstanding : b.Standing) (hpos : 0 < b.core.size) (hfits : start + (made + 1) < 2 ^ 63)
    (hslot : slot ≤ used) (hi : used % b.warriors.length = place) :
    let next := (b.takeTurn (warrior owner (Int64.ofNat (start + made))) place).conclude.2
    next.Clock (used + 1) → Advance owner place start (used + 1) (made + 1) next := by
  intro next hclock
  have hused := h.used_eq hvacant hslot hi
  have hlength : next.warriors.length = b.warriors.length := b.turned_length _ place
  have hpointer : Int64.ofNat (start + made) + 1 = Int64.ofNat (start + (made + 1)) :=
    (Int64.ofNat_add (start + made) 1).symm
  have hcore : next.core = b.core.write (start + (made + 1) : Nat) (cell owner) := by
    rw [Battle.conclude_core, Battle.takeTurn_core, h.here.coreAfter_eq, hpointer, Int64.toInt_ofNat_of_lt hfits]
  refine ⟨hclock, ?_, ?_, ?_, ?_, ?_⟩
  · rw [Battle.conclude_steps, Battle.takeTurn_steps]
    have hsteps := h.steps_le
    omega
  · intro round
    have hrow : 0 < b.warriors.length := Nat.zero_lt_of_lt h.here.alive.lt
    rw [hlength, hused, Nat.lt_succ_iff, Nat.lt_succ_iff, Nat.add_le_add_iff_right, Nat.mul_le_mul_right_iff hrow]
  · rw [← hpointer]
    exact h.here.turn_self hpos
  · intro offset hoffset
    rw [hcore, b.core.read_write hpos]
    by_cases hcell : b.core.index (start + (made + 1) : Nat) = b.core.index (start + offset : Nat)
    · rw [if_pos hcell]
    · rw [if_neg hcell]
      apply h.copies
      have hold : offset ≠ made + 1 := by
        intro heq
        rw [heq] at hcell
        exact hcell rfl
      omega
  · intro other hne hlate
    rw [hlength, hcore, Core.size_write] at hlate
    exact h.overrun_turned hvacant hstanding hpos hi h.here.stands hne hlate

/-- a bystander's turn leaves the imp as far as it was -/
theorem turned_other (hstanding : b.Standing) (hwriter : b.SoleWriter owner.program) {i : Nat} {w : Warrior}
    (hslot : slot ≤ used) (hi : used % b.warriors.length = i) (hw : b.warriors[i]? = some w) (hne : i ≠ place)
    (hclock : (b.takeTurn w i).conclude.2.Clock (used + 1)) :
    Advance owner place start (used + 1) made (b.takeTurn w i).conclude.2 := by
  have hsame : b.coreAfter w = b.core := hwriter.coreAfter_eq (h.here.id_ne hstanding.distinct hne hw)
  have hlength := b.turned_length w i
  have hcore : (b.takeTurn w i).conclude.2.core = b.core := by
    rw [Battle.conclude_core, Battle.takeTurn_core, hsame]
  have hused : used < made * b.warriors.length + place := by
    apply Nat.lt_of_le_of_ne (h.used_le hvacant)
    intro heq
    apply hne
    rw [← hi, heq, Nat.mul_add_mod_of_lt h.here.alive.lt]
  refine ⟨hclock, ?_, ?_, h.here.turn_other hne hsame, ?_, ?_⟩
  · rw [Battle.conclude_steps, Battle.takeTurn_steps]
    have hsteps := h.steps_le
    omega
  · intro round
    rw [hlength]
    constructor
    · intro hround
      have hbefore := (h.turns round).1 hround
      omega
    · intro hbefore
      apply Nat.lt_of_mul_lt_mul_right (a := b.warriors.length)
      omega
  · rw [hcore]
    exact h.copies
  · intro other hother hlate
    rw [hlength, hcore] at hlate
    exact h.overrun_turned hvacant hstanding hwriter.traced.size_pos hi hw hother hlate

end

/-- **The advance of the imp.** Every step of a game that is going on takes it one turn further. -/
theorem step (hwalks : Walks owner place b) (hsize : b.core.size < 2 ^ 61) (hstart : start < b.core.size)
    (hstarted : b.isStarted = true) (hopen : b.concluded = false) (htwo : 2 ≤ b.living.length) :
    ∃ slot made, Advance owner place start slot made b.step.2 := by
  have hpos : 0 < b.core.size := Nat.zero_lt_of_lt hstart
  have hmade := h.made_le (h.slot_lt hwalks.standing hpos htwo)
  obtain ⟨turn, w, i, hturn, hnext, hstep⟩ := hwalks.standing.step_eq hstarted hopen
  obtain ⟨hw, -, -⟩ := Battle.nextLive?_eq_some hnext
  obtain ⟨used, hslot, hi, hvacant, hclock⟩ := h.clock.turned hturn hnext
  rw [hstep]
  by_cases hself : i = place
  · subst hself
    obtain rfl : w = warrior owner (Int64.ofNat (start + made)) := Option.some.inj (hw.symm.trans h.here.stands)
    exact ⟨used + 1, made + 1, h.turned_self hvacant hwalks.standing hpos (by omega) hslot hi hclock⟩
  · exact ⟨used + 1, made, h.turned_other hvacant hwalks.standing hwalks.writer hslot hi hw hself hclock⟩

end Advance

/-! ## Until the game is over -/

/-- the imp at the place is going round the core from its start on, in a row of so many warriors -/
structure Race (rules : Rules) (owner : Owner) (place start count : Nat) (b : Battle G) : Prop where
  start_lt : start < rules.coreSize
  walks : Walks owner place b
  orderly : b.Orderly rules
  decided : b.Decided
  started : b.isStarted = true
  count_eq : b.warriors.length = count
  advance : b.concluded = false → ∃ slot made, Advance owner place start slot made b

namespace Race

variable {rules : Rules} {owner : Owner} {place start count : Nat} {b : Battle G}

/-- when the game is opened, the imp has made no copies yet -/
theorem opened (hstanding : b.Standing) (horderly : b.Orderly rules) (hwriter : b.SoleWriter owner.program)
    (hturn : b.turn = some 0) (hnew : b.steps = 0) (hsize : rules.coreSize < 2 ^ 61) (hstart : start < rules.coreSize)
    (hat : At owner place (Int64.ofNat start) b) : Race rules owner place start b.warriors.length b := by
  have hpointer : (Int64.ofNat start).toInt = start := Int64.toInt_ofNat_of_lt (by omega)
  refine ⟨hstart, ⟨hstanding, hwriter, _, hat⟩, horderly, ?_, ?_, rfl, ?_⟩
  · intro hover
    rw [(hstanding.unharmed hnew).1] at hover
    cases hover
  · rw [Battle.isStarted, hturn, Option.isSome_some]
  · intro _
    refine ⟨0, 0, Battle.Clock.start hturn, Nat.le_of_eq hnew, ?_, hat, ?_, ?_⟩
    · intro round
      omega
    · intro offset hoffset
      rw [Nat.le_zero.1 hoffset, Nat.add_zero, ← hpointer]
      exact hat.ready
    · intro other _ hbefore
      omega

variable (h : Race rules owner place start count b)
include h

/-- while the game is going on, the imp is not alone -/
theorem two_living (hcount : 2 ≤ count) (hopen : b.concluded = false) : 2 ≤ b.living.length := by
  by_cases hsteps : b.steps = 0
  · have hall : b.living = b.warriors := List.filter_eq_self.2 (h.walks.standing.unharmed hsteps).2
    rw [hall, h.count_eq]
    exact hcount
  · exact h.walks.standing.contested (Nat.pos_of_ne_zero hsteps) hopen

theorem step (hcount : 2 ≤ count) (hsize : rules.coreSize < 2 ^ 61) : Race rules owner place start count b.step.2 := by
  refine ⟨h.start_lt, h.walks.step, Battle.moves_orderly b.step_moves h.orderly,
    Battle.step_decided h.walks.standing h.decided, Battle.isStarted_step h.started, ?_, ?_⟩
  · rw [Battle.step_length, h.count_eq]
  · intro hgoing
    cases hopen : b.concluded with
    | true =>
      obtain ⟨log, hstep⟩ := Battle.step_concluded hopen
      rw [hstep] at hgoing
      exact absurd (hopen.symm.trans hgoing) (by decide)
    | false =>
      obtain ⟨slot, made, hadvance⟩ := h.advance hopen
      have hstart := h.start_lt
      rw [← h.orderly.size_eq] at hsize hstart
      exact hadvance.step h.walks hsize hstart h.started hopen (h.two_living hcount hopen)

/-- a game that is going on has not had as many steps for each warrior as the core has cells -/
theorem steps_lt (hcount : 2 ≤ count) (hopen : b.concluded = false) : b.steps < count * rules.coreSize := by
  obtain ⟨slot, made, hadvance⟩ := h.advance hopen
  have hpos := h.walks.writer.traced.size_pos
  calc b.steps ≤ slot := hadvance.steps_le
    _ < b.core.size * b.warriors.length := hadvance.slot_lt h.walks.standing hpos (h.two_living hcount hopen)
    _ = count * rules.coreSize := by rw [h.orderly.size_eq, h.count_eq, Nat.mul_comm]

/-- and when it is over, the imp has won -/
theorem winner (hover : b.concluded = true) : b.outcome = .winner owner.program := by
  obtain ⟨pointer, hat⟩ := h.walks.here
  have himp : warrior owner pointer ∈ b.living := Battle.mem_living.2 ⟨List.mem_of_getElem? hat.stands, rfl⟩
  cases houtcome : b.outcome with
  | running => exact absurd houtcome (h.decided hover)
  | draw =>
    obtain ⟨-, hnone⟩ := (Battle.outcome_eq_draw_iff b).1 houtcome
    rw [hnone] at himp
    cases himp
  | winner id =>
    have hone := (Battle.outcome_eq_winner_iff b id).1 houtcome
    have hid : owner.program ∈ b.living.map (·.id) := List.mem_map_of_mem himp
    rw [hone] at hid
    rw [List.mem_singleton.1 hid]

/-- with steps enough for a turn of every warrior for each cell, the imp wins -/
theorem run (hcount : 2 ≤ count) (hsize : rules.coreSize < 2 ^ 61) (hnew : b.steps = 0) {budget : Nat}
    (hbudget : count * rules.coreSize ≤ budget) :
    (b.run budget).1 = .winner owner.program ∧ (b.run budget).2.steps ≤ count * rules.coreSize := by
  have hopen : b.concluded = false := (h.walks.standing.unharmed hnew).1
  have hrace : ∀ j, Race rules owner place start count (b.run j).2 := by
    intro j
    exact Battle.run_preserves (P := Race rules owner place start count) (fun _ hc => hc.step hcount hsize) h j
  -- a run that is still going on has executed its whole budget
  have hlong : ∀ j, (b.run j).2.concluded = false → j < count * rules.coreSize := by
    intro j hgoing
    obtain ⟨k, -, -, hsteps, -, hlast⟩ := Battle.run_progress h.walks.standing h.started hopen j
    have hfew := (hrace j).steps_lt hcount hgoing
    have hwhole := hlast hgoing
    omega
  obtain ⟨k, hk, -, hsteps, hbefore, hlast⟩ := Battle.run_progress h.walks.standing h.started hopen budget
  have hover : (b.run budget).2.concluded = true := by
    by_contra hgoing
    have hshort := hlong budget (by simpa using hgoing)
    omega
  refine ⟨?_, ?_⟩
  · rw [Battle.run_fst]
    exact (hrace budget).winner hover
  · rw [hsteps, hnew, Nat.zero_add]
    by_contra hmore
    have hgoing := hbefore (count * rules.coreSize) (by omega)
    exact absurd (hlong _ hgoing) (Nat.lt_irrefl _)

end Race

end Imp

namespace Battle

variable {G : Type} [WordSource G]

/-! ## Main result -/

/-- until an instruction is executed, an imp that was loaded stands where it was loaded -/
theorem imp_at {rules : Rules} {g : G} {b₀ : Battle G} (h₀ : ofRules rules g = .ok b₀)
    (hwrap : rules.placement = .wrapping) (hsize : rules.coreSize < 2 ^ 61) {requests : List Request}
    (hidle : ∀ request ∈ requests, request ≠ .step ∧ ∀ budget, request ≠ .run budget)
    {before behind : List Loading} {imp : Loading} (hloaded : b₀.loaded requests = before ++ imp :: behind)
    (himp : imp.code = Roster.imp) :
    Imp.At ⟨imp.id, imp.process⟩ before.length (Int64.ofNat imp.start) (b₀.after requests) := by
  have hwarrior : imp.warrior = Imp.warrior ⟨imp.id, imp.process⟩ (Int64.ofNat imp.start) := by
    rw [Loading.warrior, Loading.stamped, himp]
    rfl
  obtain ⟨hstart, hplace, hpresent⟩ := loaded_at h₀ hwrap (by omega) hidle hloaded
  rw [hwarrior] at hplace
  refine ⟨hplace, ?_⟩
  have hstamped : imp.stamped[0]? = some (Imp.cell ⟨imp.id, imp.process⟩) := by
    rw [Loading.stamped, himp]
    rfl
  have hcopy := hpresent 0 _ hstamped
  rw [Int.natCast_zero, Int.add_zero] at hcopy
  rw [Int64.toInt_ofNat_of_lt (by omega), hcopy]

/-- when the game is opened, the imp is ready to go round the core -/
theorem imp_race {rules : Rules} {g : G} {b₀ : Battle G} (h₀ : ofRules rules g = .ok b₀)
    (hwrap : rules.placement = .wrapping) (hsize : rules.coreSize < 2 ^ 61) {requests : List Request}
    (hidle : ∀ request ∈ requests, request ≠ .step ∧ ∀ budget, request ≠ .run budget)
    {before behind : List Loading} {imp : Loading} (hloaded : b₀.loaded requests = before ++ imp :: behind)
    (himp : imp.code = Roster.imp) (hothers : ∀ l ∈ before ++ behind, ∀ c ∈ l.code, c.op.isHarmless = true) :
    Imp.Race rules ⟨imp.id, imp.process⟩ before.length imp.start ((before ++ behind).length + 1)
      (b₀.after (requests ++ [.start])) := by
  have hidle' := idle_start hidle
  have hloaded' : b₀.loaded (requests ++ [.start]) = before ++ imp :: behind := by rw [loaded_start, hloaded]
  have hat := imp_at h₀ hwrap hsize hidle' hloaded' himp
  have hsome : b₀.loaded requests ≠ [] := by simp [hloaded]
  obtain ⟨hrow, hturn, hnew⟩ := after_opening h₀ hidle hsome
  have hlength : (b₀.after (requests ++ [.start])).warriors.length = (before ++ behind).length + 1 := by
    rw [hrow, List.length_map, hloaded, List.length_append, List.length_append, List.length_cons, Nat.add_assoc]
  have hwriter : SoleWriter imp.id (b₀.after (requests ++ [.start])) := soleWriter_of_loaded h₀ hloaded' hothers
  have hstart : imp.start < rules.coreSize := (loaded_at h₀ hwrap (by omega) hidle hloaded).1
  rw [← hlength]
  exact Imp.Race.opened (standing_after h₀ _) (orderly_after h₀ _) hwriter hturn hnew hsize hstart hat

/-- **The imp beats everything that cannot write.** In a new battle in a core of less than `2 ^ 61` cells, where a
program has to find all its cells free, an imp and at least one other program are loaded, in any order and at any
places, and then the game is opened. If no code but the imp's has a MOV or an ADD, then the imp is alive after whatever is
requested without loading anybody; and a run with a budget of one step for each warrior and each cell, or more, has the
outcome that the imp wins, and executes at most so many instructions. -/
theorem imp_law {rules : Rules} {g : G} {b₀ : Battle G} (h₀ : ofRules rules g = .ok b₀)
    (hwrap : rules.placement = .wrapping) (hsize : rules.coreSize < 2 ^ 61) {requests : List Request}
    (hidle : ∀ request ∈ requests, request ≠ .step ∧ ∀ budget, request ≠ .run budget)
    {before behind : List Loading} {imp : Loading} (hloaded : b₀.loaded requests = before ++ imp :: behind)
    (himp : imp.code = Roster.imp) (hothers : ∀ l ∈ before ++ behind, ∀ c ∈ l.code, c.op.isHarmless = true)
    (hcompany : before ++ behind ≠ []) :
    let b := b₀.after (requests ++ [.start])
    let k := (before ++ behind).length
    (∀ plays, b.loaded plays = [] → ∃ w ∈ (b.after plays).warriors, w.id = imp.id ∧ w.alive = true) ∧
    ∀ budget, (k + 1) * rules.coreSize ≤ budget →
      (b.run budget).1 = .winner imp.id ∧ (b.run budget).2.steps ≤ (k + 1) * rules.coreSize := by
  intro b k
  have hrace : Imp.Race rules ⟨imp.id, imp.process⟩ before.length imp.start (k + 1) b :=
    imp_race h₀ hwrap hsize hidle hloaded himp hothers
  refine ⟨?_, ?_⟩
  · intro plays hnone
    have hwalks : Imp.Walks ⟨imp.id, imp.process⟩ before.length (b.after plays) := by
      apply after_preserves_of_no_loading _ _ (fun _ hc => hc.step) hrace.walks hnone
      · intro c generator hc
        exact hc.move (.noted generator c.log) rfl rfl
      · intro c hcrowd hc
        exact hc.move (.opened hcrowd) rfl rfl
    obtain ⟨pointer, hat⟩ := hwalks.here
    exact ⟨_, List.mem_of_getElem? hat.stands, rfl, rfl⟩
  · intro budget hbudget
    have hcount : 2 ≤ k + 1 := Nat.succ_le_succ (List.length_pos_iff.2 hcompany)
    have hnew : b.steps = 0 := by
      rw [steps_after_of_idle b₀ (idle_start hidle), (ofRules_ok h₀).2]
    exact hrace.run hcount hsize hnew hbudget

/-- a splitting program in front of the imp and a jump to the farthest address behind it, in a core of eight cells -/
theorem imp_law_splitter :
    let splitter : Loading := ⟨0, 0, [{ op := .spl, a := ⟨2, some .direct⟩ }, Cell.jmp (-1)], 7⟩
    let imp : Loading := ⟨1, 0, Roster.imp, 3⟩
    let jump : Loading := ⟨2, 0, [Cell.jmp Int64.maxValue], 6⟩
    let requests : List Request :=
      [.loadAt 0 0 splitter.code (-1), .start, .loadAt 1 0 Roster.imp 3, .loadAt 2 0 jump.code 3,
        .loadAt 2 0 jump.code 6]
    ofRules eightEmpty.rules eightEmpty.generator = .ok eightEmpty ∧
      eightEmpty.loaded requests = [splitter] ++ imp :: [jump] ∧
      (∃ w ∈ ((eightEmpty.after (requests ++ [.start])).after (List.replicate 9 .step)).warriors,
        w.id = 1 ∧ w.alive = true) ∧
      ((eightEmpty.after (requests ++ [.start])).run 24).1 = .winner 1 ∧
      ((eightEmpty.after (requests ++ [.start])).run 24).2.steps ≤ 24 := by
  intro splitter imp jump requests
  have hnew : ofRules eightEmpty.rules eightEmpty.generator = .ok eightEmpty := rfl
  have hloaded : eightEmpty.loaded requests = [splitter] ++ imp :: [jump] := by decide +kernel
  have hidle : ∀ request ∈ requests, request ≠ .step ∧ ∀ budget, request ≠ .run budget := by simp [requests]
  have hothers : ∀ l ∈ [splitter] ++ [jump], ∀ c ∈ l.code, c.op.isHarmless = true := by decide +kernel
  have hnobody : (eightEmpty.after (requests ++ [.start])).loaded (List.replicate 9 .step) = [] := by decide +kernel
  obtain ⟨halive, hwins⟩ := imp_law hnew rfl (by decide) hidle hloaded rfl hothers (by simp)
  obtain ⟨hwinner, hsteps⟩ := hwins 24 (by decide)
  exact ⟨hnew, hloaded, halive _ hnobody, hwinner, hsteps⟩

end Battle

end CoreWar
