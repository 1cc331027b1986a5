/-
The duel: imp against imp.

Both imps go round the core for ever, each one cell ahead in its turn, and each overwrites whatever it comes to, the
trail of the other included. What keeps an imp alive is that the other never writes the cell that it is about to execute.
The distance between the two is the same after every round, and one less when only the first has had its turn. So the
first would have to write the cell of the second at once, or never; and the second writes the cell of the first only if
both stand on one cell, which they never do. Only where the second was loaded right ahead of the first is it overwritten,
before it has its first turn. Right behind the first it is as safe as anywhere else.

- `Imp.At.step_eq` and the lemmas behind it: a step in which it is an imp's turn.
- `Imp.Duel`: both imps after so many steps; `Duel.step`, `Duel.run`: kept by steps and runs, unless the second stands
  right ahead.
- `Imp.Duel.fatal`: the first two steps, if it does.
- `duel_law`: two imps, after the opening.
-/
import Mathlib.Data.Nat.ModEq
import CoreWar.Proofs.Deaths
import CoreWar.Proofs.Footprint
import CoreWar.Proofs.Imp

namespace CoreWar

/-- a warrior whose turn it is on a cell that is not its own is killed, and the fault is recorded -/
theorem Battle.step_of_foreign {G : Type} {b : Battle G} {i : Nat} {w : Warrior} (hturn : b.turn = some i)
    (hopen : b.concluded = false) (hw : b.warriors[i]? = some w) (halive : w.alive = true)
    (hforeign : (b.core.read w.next.1.toInt).ownerProgram ≠ some w.id) :
    b.step = (b.takeTurn w i).conclude ∧ b.step.2.warriors = b.warriors.set i w.next.2.kill ∧
      b.step.2.steps = b.steps + 1 ∧
      b.step.2.faults = b.faults ++ [⟨b.steps + 1, w.id, .ownershipMismatch (b.core.index w.next.1.toInt)
        (b.core.read w.next.1.toInt).ownerProgram w.id⟩] := by
  have hstep : b.step = (b.takeTurn w i).conclude := step_of_next hturn hopen (nextLive?_of_alive hw halive)
  have heffect : b.core.effect b.rules w.next.2 w.next.1 = .error _ := Core.Execution.effect_eq (.foreign hforeign)
  obtain ⟨-, hkill, hfaults⟩ := takeTurn_fault (i := i) heffect
  refine ⟨hstep, ?_, ?_, ?_⟩
  · rw [hstep, conclude_warriors, takeTurn_warriors, hkill]
  · rw [hstep, conclude_steps, takeTurn_steps]
  · rw [hstep, conclude_faults, hfaults]
    rfl

namespace Imp

variable {G : Type}

/-! ## A step that is an imp's turn -/

section

variable {owner : Owner} {place : Nat} {pointer : Int64} {b : Battle G} (h : At owner place pointer b)
  (hturn : b.turn = some place) (hopen : b.concluded = false)
include h hturn hopen

theorem At.step_eq : b.step = (b.takeTurn (warrior owner pointer) place).conclude :=
  Battle.step_of_next hturn hopen (Battle.nextLive?_of_alive h.stands rfl)

theorem At.step_turn : b.step.2.turn = some ((place + 1) % b.warriors.length) := by
  rw [h.step_eq hturn hopen, Battle.conclude_turn, Battle.takeTurn_turn]

theorem At.step_faults : b.step.2.faults = b.faults := by
  rw [h.step_eq hturn hopen, Battle.conclude_faults, Battle.takeTurn_ok h.effect_eq]

theorem At.step_steps : b.step.2.steps = b.steps + 1 := by
  rw [h.step_eq hturn hopen, Battle.conclude_steps, Battle.takeTurn_steps]

theorem At.step_core : b.step.2.core = b.core.write (pointer + 1).toInt (cell owner) := by
  rw [h.step_eq hturn hopen, Battle.conclude_core, Battle.takeTurn_core, h.coreAfter_eq]

/-- the imp goes one cell ahead -/
theorem At.step_self (hpos : 0 < b.core.size) : At owner place (pointer + 1) b.step.2 := by
  rw [h.step_eq hturn hopen]
  exact h.turn_self hpos

theorem At.step_others {i : Nat} (hne : place ≠ i) : b.step.2.warriors[i]? = b.warriors[i]? := by
  rw [h.step_eq hturn hopen, Battle.conclude_warriors, Battle.takeTurn_warriors, List.getElem?_set_ne hne]

/-- another imp stays where it is, ready unless its cell is the one that is written -/
theorem At.step_rival {rival : Owner} {place' : Nat} {pointer' : Int64} (h' : At rival place' pointer' b)
    (hplace : place ≠ place') (hpos : 0 < b.core.size)
    (hcell : b.core.index (pointer + 1).toInt ≠ b.core.index pointer'.toInt) : At rival place' pointer' b.step.2 := by
  refine ⟨?_, ?_⟩
  · rw [h.step_others hturn hopen hplace, h'.stands]
  · rw [h.step_core hturn hopen, b.core.read_write hpos, if_neg hcell, h'.ready]

/-- the game goes on if two are alive after the turn -/
theorem At.step_going (htwo : 2 ≤ b.step.2.living.length) : b.step.1 = true ∧ b.step.2.concluded = false := by
  have hrunning : b.step.2.outcome = .running := (Battle.outcome_eq_running_iff _).2 (Or.inr htwo)
  rw [h.step_eq hturn hopen] at hrunning ⊢
  rw [Battle.conclude_outcome] at hrunning
  have hgoing := (Battle.conclude_fst _).2 hrunning
  refine ⟨hgoing, ?_⟩
  rw [Battle.conclude_concluded, Battle.takeTurn_concluded, hopen, hgoing]
  rfl

end

/-! ## Two imps -/

/-- the pointer of an imp that was loaded at the start, after so many turns of its own -/
def pointerAfter (start made : Nat) : Int64 := Int64.ofNat (start + made)

theorem pointerAfter_succ (start made : Nat) : pointerAfter start made + 1 = pointerAfter start (made + 1) :=
  (Int64.ofNat_add (start + made) 1).symm

theorem index_pointerAfter (core : Core) {start made : Nat} (h : start + made < 2 ^ 63) :
    core.index (pointerAfter start made).toInt = (start + made) % core.size := by
  rw [pointerAfter, Int64.toInt_ofNat_of_lt h, core.index_natCast_mod]

/-- two warriors in a row of two are the whole row -/
theorem row_eq {b : Battle G} {w v : Warrior} (hw : b.warriors[0]? = some w) (hv : b.warriors[1]? = some v)
    (hpair : b.warriors.length = 2) : b.warriors = [w, v] := by
  obtain ⟨w', v', hrow⟩ := List.length_eq_two.1 hpair
  rw [hrow] at hw hv
  rw [hrow, Option.some.inj hw, Option.some.inj hv]

theorem two_living {first second : Owner} {p q : Int64} {b : Battle G} (hfirst : b.warriors[0]? = some (warrior first p))
    (hsecond : b.warriors[1]? = some (warrior second q)) (hpair : b.warriors.length = 2) : 2 ≤ b.living.length := by
  rw [Battle.living, row_eq hfirst hsecond hpair]
  exact Nat.le_refl 2

/-- two imps and nobody else are in the game, which has had so many steps and no fault: the even steps were turns of the
first imp, the odd ones of the second, and both stand on copies of their own -/
structure Duel (size : Nat) (first second : Owner) (s t steps : Nat) (b : Battle G) : Prop where
  first_at : At first 0 (pointerAfter s ((steps + 1) / 2)) b
  second_at : At second 1 (pointerAfter t (steps / 2)) b
  pair : b.warriors.length = 2
  turn : b.turn = some (steps % 2)
  going : b.concluded = false
  unharmed : b.faults = []
  steps_eq : b.steps = steps
  size_eq : b.core.size = size

namespace Duel

variable {size : Nat} {first second : Owner} {s t steps : Nat} {b : Battle G}

/-- a turn of either, after which both are ready, is a step of the duel -/
theorem turned (h : Duel size first second s t steps b) {mover : Owner} {place : Nat} {pointer : Int64}
    (hmover : At mover place pointer b) (hturn : b.turn = some place) (hnext : (place + 1) % 2 = (steps + 1) % 2)
    (hfirst : At first 0 (pointerAfter s ((steps + 1 + 1) / 2)) b.step.2)
    (hsecond : At second 1 (pointerAfter t ((steps + 1) / 2)) b.step.2) :
    b.step.1 = true ∧ Duel size first second s t (steps + 1) b.step.2 := by
  have hpair : b.step.2.warriors.length = 2 := by rw [Battle.step_length, h.pair]
  obtain ⟨hflag, hgoing⟩ := hmover.step_going hturn h.going (two_living hfirst.stands hsecond.stands hpair)
  refine ⟨hflag, hfirst, hsecond, hpair, ?_, hgoing, ?_, ?_, ?_⟩
  · rw [hmover.step_turn hturn h.going, h.pair, hnext]
  · rw [hmover.step_faults hturn h.going, h.unharmed]
  · rw [hmover.step_steps hturn h.going, h.steps_eq]
  · rw [hmover.step_core hturn h.going, Core.size_write, h.size_eq]

/-- **One step of the duel.** If the second imp was loaded neither where the first was nor right ahead of it, both are
ready after the step too. -/
theorem step (h : Duel size first second s t steps b) (hpos : 0 < size) (hs : s + (steps + 1) < 2 ^ 63)
    (ht : t + (steps + 1) < 2 ^ 63) (hsame : ¬ s ≡ t [MOD size]) (hahead : ¬ s + 1 ≡ t [MOD size]) :
    b.step.1 = true ∧ Duel size first second s t (steps + 1) b.step.2 := by
  have hfirst := h.first_at
  have hsecond := h.second_at
  rw [← h.size_eq] at hpos hsame hahead
  obtain ⟨made, rfl | rfl⟩ : ∃ made, steps = 2 * made ∨ steps = 2 * made + 1 := ⟨steps / 2, by omega⟩
  · -- both have had `made` turns, and the first writes `made + 1` cells ahead of its start
    have hturn : b.turn = some 0 := by rw [h.turn, Nat.mul_mod_right]
    rw [show (2 * made + 1) / 2 = made by omega] at hfirst
    rw [show 2 * made / 2 = made by omega] at hsecond
    have hcell : b.core.index (pointerAfter s made + 1).toInt ≠ b.core.index (pointerAfter t made).toInt := by
      rw [pointerAfter_succ, index_pointerAfter _ (by omega), index_pointerAfter _ (by omega), Nat.add_comm made 1,
        ← Nat.add_assoc]
      intro heq
      exact hahead (Nat.ModEq.add_right_cancel' made heq)
    have hfirst' := hfirst.step_self hturn h.going hpos
    have hsecond' := hfirst.step_rival hturn h.going hsecond (by decide) hpos hcell
    rw [pointerAfter_succ, show made + 1 = (2 * made + 1 + 1) / 2 by omega] at hfirst'
    rw [show made = (2 * made + 1) / 2 by omega] at hsecond'
    exact h.turned hfirst hturn (by omega) hfirst' hsecond'
  · -- the first has had one turn more, and the second writes `made + 1` cells ahead of its start
    have hturn : b.turn = some 1 := by rw [h.turn, Nat.mul_add_mod]
    rw [show (2 * made + 1 + 1) / 2 = made + 1 by omega] at hfirst
    rw [show (2 * made + 1) / 2 = made by omega] at hsecond
    have hcell : b.core.index (pointerAfter t made + 1).toInt ≠ b.core.index (pointerAfter s (made + 1)).toInt := by
      rw [pointerAfter_succ, index_pointerAfter _ (by omega), index_pointerAfter _ (by omega)]
      intro heq
      exact hsame (Nat.ModEq.add_right_cancel' (made + 1) heq.symm)
    have hsecond' := hsecond.step_self hturn h.going hpos
    have hfirst' := hsecond.step_rival hturn h.going hfirst (by decide) hpos hcell
    rw [pointerAfter_succ, show made + 1 = (2 * made + 1 + 1) / 2 by omega] at hsecond'
    rw [show made + 1 = (2 * made + 1 + 1 + 1) / 2 by omega] at hfirst'
    exact h.turned hsecond hturn (by omega) hfirst' hsecond'

/-- and after a run, as long as no pointer wraps around -/
theorem run (h : Duel size first second s t steps b) (hpos : 0 < size) {budget : Nat}
    (hs : s + (steps + budget) < 2 ^ 63) (ht : t + (steps + budget) < 2 ^ 63) (hsame : ¬ s ≡ t [MOD size])
    (hahead : ¬ s + 1 ≡ t [MOD size]) :
    (b.run budget).1 = .running ∧ Duel size first second s t (steps + budget) (b.run budget).2 := by
  induction budget generalizing steps b with
  | zero =>
    have htwo := two_living h.first_at.stands h.second_at.stands h.pair
    exact ⟨(Battle.outcome_eq_running_iff b).2 (Or.inr htwo), h⟩
  | succ budget ih =>
    obtain ⟨hflag, hnext⟩ := h.step hpos (by omega) (by omega) hsame hahead
    rw [Battle.run_of_going (Prod.ext hflag rfl), show steps + (budget + 1) = steps + 1 + budget by omega]
    exact ih hnext (by omega) (by omega)

/-- **The fatal place.** Right ahead of the first imp, the second is overwritten by the first step and killed by the
second one. -/
theorem fatal (h : Duel size first second s t 0 b) (hs : s + 1 < 2 ^ 63) (ht : t < 2 ^ 63)
    (htsize : t < size) (hid : first.program ≠ second.program) (hahead : s + 1 ≡ t [MOD size]) :
    b.step.1 = true ∧ b.step.2.outcome = .running ∧ b.step.2.step.1 = false ∧
      b.step.2.step.2.outcome = .winner first.program ∧ b.step.2.step.2.steps = 2 ∧
      b.step.2.step.2.faults = [⟨2, second.program, .ownershipMismatch t (some first.program) second.program⟩] := by
  have hpos : 0 < b.core.size := by
    rw [h.size_eq]
    exact Nat.zero_lt_of_lt htsize
  have hfirst : At first 0 (pointerAfter s 0) b := h.first_at
  have hsecond : At second 1 (pointerAfter t 0) b := h.second_at
  have hturn : b.turn = some 0 := h.turn
  have hpair : b.step.2.warriors.length = 2 := by rw [Battle.step_length, h.pair]
  -- the first step writes the cell of the second imp
  have hfirst' := hfirst.step_self hturn h.going hpos
  have hsecond' : b.step.2.warriors[1]? = some (warrior second (pointerAfter t 0)) := by
    rw [hfirst.step_others hturn h.going (by decide), hsecond.stands]
  have htwo := two_living hfirst'.stands hsecond' hpair
  obtain ⟨hflag, hgoing⟩ := hfirst.step_going hturn h.going htwo
  have hturn' : b.step.2.turn = some 1 := by rw [hfirst.step_turn hturn h.going, h.pair]
  have hindex : b.step.2.core.index (pointerAfter t 0).toInt = t := by
    rw [hfirst.step_core hturn h.going, Core.index_write, index_pointerAfter _ (by omega), h.size_eq, Nat.add_zero,
      Nat.mod_eq_of_lt htsize]
  have hcopy : b.step.2.core.read (pointerAfter t 0).toInt = cell first := by
    have hcell : b.core.index (pointerAfter s 0 + 1).toInt = b.core.index (pointerAfter t 0).toInt := by
      rw [pointerAfter_succ, index_pointerAfter _ (by omega), index_pointerAfter _ (by omega), h.size_eq]
      exact hahead
    rw [hfirst.step_core hturn h.going, b.core.read_write hpos, if_pos hcell]
  -- so the second one is killed by its first turn
  have hforeign : (b.step.2.core.read (pointerAfter t 0).toInt).ownerProgram ≠ some second.program := by
    rw [hcopy]
    intro howner
    exact hid (Option.some.inj howner)
  obtain ⟨hstep, hwarriors, hsteps, hfaults⟩ := Battle.step_of_foreign hturn' hgoing hsecond' rfl hforeign
  have hwinner : b.step.2.step.2.outcome = .winner first.program := by
    rw [Battle.outcome_eq_winner_iff, Battle.living, hwarriors, row_eq hfirst'.stands hsecond' hpair]
    rfl
  refine ⟨hflag, (Battle.outcome_eq_running_iff _).2 (Or.inr htwo), ?_, hwinner, ?_, ?_⟩
  · rw [hstep, Battle.conclude_outcome] at hwinner
    rw [hstep, Bool.eq_false_iff, ne_eq, Battle.conclude_fst, hwinner]
    exact Outcome.noConfusion
  · rw [hsteps, hfirst.step_steps hturn h.going, h.steps_eq]
  · have hpointer : (warrior second (pointerAfter t 0)).next.1 = pointerAfter t 0 := rfl
    rw [hfaults, hfirst.step_faults hturn h.going, h.unharmed, hfirst.step_steps hturn h.going, h.steps_eq, hpointer,
      hindex, hcopy]
    rfl

end Duel

end Imp

namespace Battle

variable {G : Type} [WordSource G]

/-! ## Main result -/

/-- when the game is opened, both imps are ready, on different cells -/
theorem imps_duel {rules : Rules} {g : G} {b₀ : Battle G} (h₀ : ofRules rules g = .ok b₀)
    (hwrap : rules.placement = .wrapping) (hsize : rules.coreSize < 2 ^ 61) {requests : List Request}
    (hidle : ∀ request ∈ requests, request ≠ .step ∧ ∀ budget, request ≠ .run budget) {first second : Loading}
    (hloaded : b₀.loaded requests = [first, second]) (hfirst : first.code = Roster.imp)
    (hsecond : second.code = Roster.imp) :
    Imp.Duel rules.coreSize ⟨first.id, first.process⟩ ⟨second.id, second.process⟩ first.start second.start 0
        (b₀.after (requests ++ [.start])) ∧
      first.id ≠ second.id ∧ first.start ≠ second.start := by
  have hsome : b₀.loaded requests ≠ [] := by simp [hloaded]
  have hloaded₁ : b₀.loaded (requests ++ [.start]) = [] ++ first :: [second] := by rw [loaded_start, hloaded]; rfl
  have hloaded₂ : b₀.loaded (requests ++ [.start]) = [first] ++ second :: [] := by rw [loaded_start, hloaded]; rfl
  obtain ⟨hrow, hturn, hsteps⟩ := after_opening h₀ hidle hsome
  have hat : Imp.At ⟨first.id, first.process⟩ 0 (Imp.pointerAfter first.start 0) (b₀.after (requests ++ [.start])) :=
    imp_at h₀ hwrap hsize (idle_start hidle) hloaded₁ hfirst
  have hat' : Imp.At ⟨second.id, second.process⟩ 1 (Imp.pointerAfter second.start 0)
      (b₀.after (requests ++ [.start])) :=
    imp_at h₀ hwrap hsize (idle_start hidle) hloaded₂ hsecond
  have hstanding : Standing (b₀.after (requests ++ [.start])) := standing_after h₀ _
  have hids : first.id ≠ second.id := hat'.id_ne hstanding.distinct (by decide) hat.stands
  refine ⟨⟨hat, hat', ?_, hturn, (hstanding.unharmed hsteps).1, ?_, hsteps, (orderly_after h₀ _).size_eq⟩, hids, ?_⟩
  · rw [hrow, hloaded]
    rfl
  · rw [List.eq_nil_iff_forall_not_mem]
    intro r hr
    have hcounted := ((chronicle_after h₀ _).records r hr).counted
    omega
  · -- a cell has one owner
    intro hstart
    have hcell := hat'.ready
    rw [← hstart, hat.ready] at hcell
    exact hids (congrArg Owner.program (Option.some.inj (congrArg Cell.owner hcell)))

/-- **Imp against imp.** In a new battle in a core of less than `2 ^ 61` cells, where a program has to find all its cells
free, two imps and nobody else are loaded, at any two places, and then the game is opened.
- If the second stands right ahead of the first, round the end of the core or not, the game goes on after the first step
  and the first imp wins by the second one, whatever the budget. The only fault on record is that of the second imp, in
  step 2, at the place where it was loaded, which by then belongs to the first.
- Otherwise the outcome of a run is that the game is running, for every budget up to `2 ^ 61`; all the steps of the budget
  are executed, and no fault is recorded. -/
theorem duel_law {rules : Rules} {g : G} {b₀ : Battle G} (h₀ : ofRules rules g = .ok b₀)
    (hwrap : rules.placement = .wrapping) (hsize : rules.coreSize < 2 ^ 61) {requests : List Request}
    (hidle : ∀ request ∈ requests, request ≠ .step ∧ ∀ budget, request ≠ .run budget) {first second : Loading}
    (hloaded : b₀.loaded requests = [first, second]) (hfirst : first.code = Roster.imp)
    (hsecond : second.code = Roster.imp) :
    let b := b₀.after (requests ++ [.start])
    (second.start = (first.start + 1) % rules.coreSize →
      (b.run 1).1 = .running ∧ ∀ budget, 2 ≤ budget →
        (b.run budget).1 = .winner first.id ∧ (b.run budget).2.steps = 2 ∧
        (b.run budget).2.faults =
          [⟨2, second.id, .ownershipMismatch second.start (some first.id) second.id⟩]) ∧
    (second.start ≠ (first.start + 1) % rules.coreSize → ∀ budget ≤ 2 ^ 61,
      (b.run budget).1 = .running ∧ (b.run budget).2.steps = budget ∧ (b.run budget).2.faults = []) := by
  intro b
  obtain ⟨hduel, hids, hstarts⟩ := imps_duel h₀ hwrap hsize hidle hloaded hfirst hsecond
  have hlt : ∀ l ∈ b₀.loaded requests, l.start < rules.coreSize := fun l hl =>
    start_lt_of_mem_loaded (orderly_ofRules h₀) hl
  have hs : first.start < rules.coreSize := hlt first (by simp [hloaded])
  have ht : second.start < rules.coreSize := hlt second (by simp [hloaded])
  have hahead : first.start + 1 ≡ second.start [MOD rules.coreSize] ↔
      second.start = (first.start + 1) % rules.coreSize := by
    rw [Nat.ModEq, Nat.mod_eq_of_lt ht, eq_comm]
  refine ⟨?_, ?_⟩
  · intro hfatal
    obtain ⟨hflag, hrunning, hlast, hwinner, hsteps, hfaults⟩ :=
      hduel.fatal (by omega) (by omega) ht hids (hahead.2 hfatal)
    have hgoing : b.step = (true, b.step.2) := Prod.ext hflag rfl
    have hover : b.step.2.step = (false, b.step.2.step.2) := Prod.ext hlast rfl
    refine ⟨?_, ?_⟩
    · rw [run_of_going hgoing]
      exact hrunning
    · intro budget hbudget
      obtain ⟨rest, rfl⟩ := Nat.exists_eq_add_of_le' hbudget
      rw [run_of_going hgoing, run_of_refused hover]
      exact ⟨hwinner, hsteps, hfaults⟩
  · intro hclear budget hbudget
    have hsame : ¬ first.start ≡ second.start [MOD rules.coreSize] := by
      intro heq
      exact hstarts (heq.eq_of_lt_of_lt hs ht)
    have hnear : first.start + (0 + budget) < 2 ^ 63 ∧ second.start + (0 + budget) < 2 ^ 63 := by omega
    obtain ⟨hrunning, hlater⟩ :=
      hduel.run (Nat.zero_lt_of_lt hs) hnear.1 hnear.2 hsame fun h => hclear (hahead.1 h)
    refine ⟨hrunning, ?_, hlater.unharmed⟩
    rw [hlater.steps_eq, Nat.zero_add]

/-- round the end of a core of eight cells: right ahead of the first imp, and right behind it -/
theorem duel_law_neighbours :
    let requests : List Request := [.loadAt 0 0 Roster.imp 7, .loadAt 1 0 Roster.imp 7, .loadAt 1 0 Roster.imp 0]
    let mirrored : List Request := [.loadAt 0 0 Roster.imp 0, .loadAt 1 0 Roster.imp (-1)]
    ofRules eightEmpty.rules eightEmpty.generator = .ok eightEmpty ∧
      eightEmpty.loaded requests = [⟨0, 0, Roster.imp, 7⟩, ⟨1, 0, Roster.imp, 0⟩] ∧
      eightEmpty.loaded mirrored = [⟨0, 0, Roster.imp, 0⟩, ⟨1, 0, Roster.imp, 7⟩] ∧
      ((eightEmpty.after (requests ++ [.start])).run 100).1 = .winner 0 ∧
      ((eightEmpty.after (requests ++ [.start])).run 100).2.faults = [⟨2, 1, .ownershipMismatch 0 (some 0) 1⟩] ∧
      ((eightEmpty.after (mirrored ++ [.start])).run (2 ^ 61)).1 = .running ∧
      ((eightEmpty.after (mirrored ++ [.start])).run (2 ^ 61)).2.faults = [] := by
  intro requests mirrored
  have hnew : ofRules eightEmpty.rules eightEmpty.generator = .ok eightEmpty := rfl
  have hloaded : eightEmpty.loaded requests = [⟨0, 0, Roster.imp, 7⟩, ⟨1, 0, Roster.imp, 0⟩] := by decide +kernel
  have hloaded' : eightEmpty.loaded mirrored = [⟨0, 0, Roster.imp, 0⟩, ⟨1, 0, Roster.imp, 7⟩] := by decide +kernel
  have hidle : ∀ request ∈ requests, request ≠ .step ∧ ∀ budget, request ≠ .run budget := by simp [requests]
  have hidle' : ∀ request ∈ mirrored, request ≠ .step ∧ ∀ budget, request ≠ .run budget := by simp [mirrored]
  obtain ⟨-, hwins⟩ := (duel_law hnew rfl (by decide) hidle hloaded rfl rfl).1 rfl
  obtain ⟨hwinner, -, hfault⟩ := hwins 100 (by decide)
  obtain ⟨hrunning, -, hunharmed⟩ :=
    (duel_law hnew rfl (by decide) hidle' hloaded' rfl rfl).2 (by decide) (2 ^ 61) (Nat.le_refl _)
  exact ⟨hnew, hloaded, hloaded', hwinner, hfault, hrunning, hunharmed⟩

end Battle

end CoreWar
