/-
The clock: turns counted on from round to round.

The turn of a battle is a place in the row of warriors, and after the last place it goes back to the first. Counted on
instead, it is a slot: with `n` warriors, slot `round * n + place` is the turn of that place in that round. A turn
leaves out the slots of the dead, uses the first slot of somebody alive, and the clock then shows the slot behind it. So
who stays alive misses none of its slots, there is at most one step for each slot, and in a comparison of slots it does
not matter any more whether a place stands in front of another or behind it.

- `nextLive?_slot`: who is next has the first slot, from the one shown on, of somebody alive.
- `Clock.turned`: the clock before and after a turn.
-/
import CoreWar.Proofs.TurnOrder

namespace CoreWar

namespace Battle

variable {G : Type}

/-- the clock shows the slot: the turn is that of its place -/
def Clock (b : Battle G) (slot : Nat) : Prop := b.turn = some (slot % b.warriors.length)

/-- nobody alive has a slot from the first on and before the last -/
def Vacant (b : Battle G) (first last : Nat) : Prop :=
  ∀ slot, first ≤ slot → slot < last → ¬ b.AliveAt (slot % b.warriors.length)

theorem turned_length (b : Battle G) (w : Warrior) (i : Nat) :
    (b.takeTurn w i).conclude.2.warriors.length = b.warriors.length := by
  rw [conclude_warriors, takeTurn_warriors, List.length_set]

theorem Clock.start {b : Battle G} (h : b.turn = some 0) : b.Clock 0 := by
  rw [Clock, h, Nat.zero_mod]

/-- who is next has the first slot, from the one shown on, of somebody alive -/
theorem nextLive?_slot {b : Battle G} {slot i : Nat} {w : Warrior}
    (h : b.nextLive? (slot % b.warriors.length) = some (w, i)) :
    ∃ used, slot ≤ used ∧ used % b.warriors.length = i ∧ b.Vacant slot used := by
  obtain ⟨hi, halive, hpassed⟩ := nextLive?_eq_some h
  obtain ⟨hlt, -⟩ := List.getElem?_eq_some_iff.1 hi
  have hdead : ∀ q, (∀ v, b.warriors[q]? = some v → v.alive = false) → ¬ b.AliveAt q := by
    rintro q hq ⟨v, hv, hvalive⟩
    rw [hq v hv] at hvalive
    cases hvalive
  generalize hn : b.warriors.length = n at *
  have hslot : slot / n * n + slot % n = slot := Nat.div_add_mod' slot n
  generalize slot / n = round at hslot
  rcases hpassed with ⟨hle, hskip⟩ | ⟨hback, hfront⟩
  · -- later in the same round
    refine ⟨round * n + i, by omega, Nat.mul_add_mod_of_lt hlt, ?_⟩
    intro x hfirst hlast
    obtain ⟨place, rfl⟩ := Nat.exists_eq_add_of_le (show round * n ≤ x by omega)
    rw [hn, Nat.mul_add_mod_of_lt (by omega)]
    exact hdead place (hskip place (by omega) (by omega))
  · -- in the next round
    have hnext : (round + 1) * n = round * n + n := Nat.succ_mul round n
    have hplace : slot % n < n := Nat.mod_lt slot (by omega)
    refine ⟨(round + 1) * n + i, by omega, Nat.mul_add_mod_of_lt hlt, ?_⟩
    intro x hfirst hlast
    by_cases hround : x < (round + 1) * n
    · obtain ⟨place, rfl⟩ := Nat.exists_eq_add_of_le (show round * n ≤ x by omega)
      rw [hn, Nat.mul_add_mod_of_lt (by omega)]
      exact hdead place (hback place (by omega))
    · obtain ⟨place, rfl⟩ := Nat.exists_eq_add_of_le (Nat.le_of_not_lt hround)
      rw [hn, Nat.mul_add_mod_of_lt (by omega)]
      exact hdead place (hfront place (by omega))

/-- **One turn of the clock.** It leaves out the slots of the dead, and then shows the slot behind the one used. -/
theorem Clock.turned {b : Battle G} {slot turn i : Nat} {w : Warrior} (h : b.Clock slot) (hturn : b.turn = some turn)
    (hnext : b.nextLive? turn = some (w, i)) :
    ∃ used, slot ≤ used ∧ used % b.warriors.length = i ∧ b.Vacant slot used ∧
      (b.takeTurn w i).conclude.2.Clock (used + 1) := by
  have hshown : turn = slot % b.warriors.length := Option.some.inj (hturn.symm.trans h)
  rw [hshown] at hnext
  obtain ⟨used, hle, hplace, hvacant⟩ := nextLive?_slot hnext
  refine ⟨used, hle, hplace, hvacant, ?_⟩
  rw [Clock, conclude_turn, takeTurn_turn, turned_length, ← hplace, Nat.mod_add_mod]

/-- the slots of somebody alive are not left out -/
theorem Vacant.le_of_alive {b : Battle G} {first last round place : Nat} (h : b.Vacant first last)
    (halive : b.AliveAt place) (hfirst : first ≤ round * b.warriors.length + place) :
    last ≤ round * b.warriors.length + place := by
  by_contra hbefore
  apply h (round * b.warriors.length + place) hfirst (Nat.lt_of_not_le hbefore)
  rw [Nat.mul_add_mod_of_lt halive.lt]
  exact halive

end Battle

end CoreWar
