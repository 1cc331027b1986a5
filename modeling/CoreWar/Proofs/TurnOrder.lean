/-
Turn order: the game is fair to whoever is alive.

The place of the next turn is counted modulo the number of warriors at the time, the row can grow before it is used, and
the dead are passed over. `turns` lists the turns taken while requests are carried out, single steps and steps inside
runs alike, each with the battle before and after it. Between two turns the row can only grow at its end (`Grown`), so a
list of turns is a `Course`: it is all that the proofs need to know of the requests.

- `Course.dead_stays`: a dead warrior takes no turn, and nothing about it changes.
- `Waiting`: what has happened since a warrior's turn, as the places `high` behind its own and then the places `low` in
  front of its own that have had theirs. `Waiting.turn` is one turn, `Waiting.course` a whole course.
- `turn_order_law`: after a start, the first turn is the first live warrior's; between two turns of a warrior everybody
  who was alive after the first has one turn, nobody has two, the dead have none, and they come in cyclic load order.
-/
import Mathlib.Data.List.Nodup
import CoreWar.Proofs.Moves
import CoreWar.Proofs.Survivors
import CoreWar.Random.Counter

namespace CoreWar

/-! ## Turns -/

/-- a turn that was taken: the place of the warrior, and the battle before and after -/
structure Turn (G : Type) where
  place : Nat
  before : Battle G
  after : Battle G
deriving DecidableEq, Repr

namespace Battle

variable {G : Type}

/-- the turn that a step takes, if it takes one -/
def nextTurn? (b : Battle G) : Option (Turn G) :=
  match b.turn with
  | none => none
  | some turn => if b.concluded then none else (b.nextLive? turn).map fun (_, place) => ⟨place, b, b.step.2⟩

/-- the turns that a run takes, in order -/
def runTurns (b : Battle G) : Nat → List (Turn G)
  | 0 => []
  | budget + 1 =>
    match b.step with
    | (true, next) => b.nextTurn?.toList ++ next.runTurns budget
    | (false, _) => b.nextTurn?.toList

theorem nextTurn?_of_next {b : Battle G} {turn : Nat} {w : Warrior} {i : Nat} (hturn : b.turn = some turn)
    (hopen : b.concluded = false) (hnext : b.nextLive? turn = some (w, i)) :
    b.nextTurn? = some ⟨i, b, b.step.2⟩ := by
  simp [nextTurn?, hturn, hopen, hnext]

/-- a run begins with the next turn -/
theorem mem_runTurns_of_next {b : Battle G} {budget : Nat} {t : Turn G} (h : t ∈ b.nextTurn?) :
    t ∈ b.runTurns (budget + 1) := by
  rw [runTurns]
  split
  · exact List.mem_append_left _ (Option.mem_toList.2 h)
  · exact Option.mem_toList.2 h

/-- and goes on from there, if the game does -/
theorem mem_runTurns_of_rest {b next : Battle G} {budget : Nat} {t : Turn G} (hstep : b.step = (true, next))
    (h : t ∈ next.runTurns budget) : t ∈ b.runTurns (budget + 1) := by
  rw [runTurns, hstep]
  exact List.mem_append_right _ h

/-- the turns taken by a request -/
def requestTurns (b : Battle G) : Request → List (Turn G)
  | .step => b.nextTurn?.toList
  | .run budget => b.runTurns budget
  | .load .. | .loadAt .. | .start => []

/-- the turns taken by a sequence of requests -/
def turns [WordSource G] (b : Battle G) : List Request → List (Turn G)
  | [] => []
  | request :: rest => b.requestTurns request ++ (b.perform request).2.turns rest

/-- a turn is taken by a live warrior, and passes on from its place -/
theorem nextTurn?_eq_some {b : Battle G} {t : Turn G} (h : b.nextTurn? = some t) :
    ∃ turn w, b.turn = some turn ∧ b.concluded = false ∧ b.nextLive? turn = some (w, t.place) ∧ t.before = b ∧
      b.step = (b.takeTurn w t.place).conclude ∧ t.after = b.step.2 := by
  unfold nextTurn? at h
  split at h
  · cases h
  · rename_i turn hturn
    split at h
    · cases h
    · rename_i hopen
      simp only [Bool.not_eq_true] at hopen
      obtain ⟨⟨w, i⟩, hnext, rfl⟩ := Option.map_eq_some_iff.1 h
      exact ⟨turn, w, hturn, hopen, hnext, rfl, step_of_next hturn hopen hnext, rfl⟩

/-- a step that takes no turn leaves the core, the row, and whose turn it is -/
theorem step_of_no_turn {b : Battle G} (h : b.nextTurn? = none) :
    b.step.2.core = b.core ∧ b.step.2.warriors = b.warriors ∧ b.step.2.turn = b.turn ∧ b.step.2.steps = b.steps := by
  rcases step_cases b with ⟨-, hstep⟩ | ⟨-, hstep⟩ | ⟨turn, -, -, -, hstep⟩ | ⟨turn, w, i, hturn, hopen, hnext, -⟩
  · rw [hstep]
    exact ⟨rfl, rfl, rfl, rfl⟩
  · rw [hstep]
    exact ⟨rfl, rfl, rfl, rfl⟩
  · rw [hstep]
    exact ⟨rfl, rfl, rfl, rfl⟩
  · rw [nextTurn?_of_next hturn hopen hnext] at h
    cases h

/-- a step that takes a turn changes the warrior whose turn it is, and the core and the faults as its instruction does -/
theorem step_of_turn {b : Battle G} {t : Turn G} (h : b.nextTurn? = some t) :
    t.after = b.step.2 ∧ ∃ w, b.warriors[t.place]? = some w ∧ w.alive = true ∧
      b.step.2.warriors = b.warriors.set t.place (b.executed w) ∧ b.step.2.core = b.coreAfter w ∧
      b.step.2.faults = (b.takeTurn w t.place).faults := by
  obtain ⟨turn, w, -, -, hnext, -, hstep, hafter⟩ := nextTurn?_eq_some h
  obtain ⟨hw, halive, -⟩ := nextLive?_eq_some hnext
  refine ⟨hafter, w, hw, halive, ?_, ?_, ?_⟩
  · rw [hstep, conclude_warriors, takeTurn_warriors]
  · rw [hstep, conclude_core, takeTurn_core]
  · rw [hstep, conclude_faults]

/-! ## Courses -/

/-- `b'` is `b` but for warriors that were loaded, as far as turns are concerned -/
structure Grown (b b' : Battle G) : Prop where
  warriors : b.warriors <+: b'.warriors
  turn : b'.turn = b.turn
  steps : b'.steps = b.steps

theorem Grown.refl (b : Battle G) : Grown b b := ⟨List.prefix_refl _, rfl, rfl⟩

theorem Grown.trans {b b' b'' : Battle G} (h₁ : Grown b b') (h₂ : Grown b' b'') : Grown b b'' :=
  ⟨h₁.warriors.trans h₂.warriors, h₂.turn.trans h₁.turn, h₂.steps.trans h₁.steps⟩

theorem Grown.getElem? {b b' : Battle G} (h : Grown b b') {q : Nat} {w : Warrior} (hq : b.warriors[q]? = some w) :
    b'.warriors[q]? = some w := by
  obtain ⟨new, hnew⟩ := h.warriors
  obtain ⟨hlt, -⟩ := List.getElem?_eq_some_iff.1 hq
  rw [← hnew, List.getElem?_append_left hlt, hq]

/-- the turns lead from `b` to `b'`, with nothing but growth in between -/
inductive Course : Battle G → List (Turn G) → Battle G → Prop where
  | rest {b b' : Battle G} (hgrown : Grown b b') : Course b [] b'
  | turn {b b' : Battle G} {t : Turn G} {ts : List (Turn G)} (hgrown : Grown b t.before)
      (htaken : t.before.nextTurn? = some t) (hcourse : Course t.after ts b') : Course b (t :: ts) b'

theorem Course.of_grown {b b' b'' : Battle G} {ts : List (Turn G)} (hgrown : Grown b b') (h : Course b' ts b'') :
    Course b ts b'' := by
  cases h with
  | rest hrest => exact .rest (hgrown.trans hrest)
  | turn hbefore htaken hcourse => exact .turn (hgrown.trans hbefore) htaken hcourse

theorem Course.append {b b' b'' : Battle G} {ts ts' : List (Turn G)} (h₁ : Course b ts b') (h₂ : Course b' ts' b'') :
    Course b (ts ++ ts') b'' := by
  induction h₁ with
  | rest hgrown => exact h₂.of_grown hgrown
  | turn hbefore htaken _ ih => exact .turn hbefore htaken (ih h₂)

/-- a course can be cut at each of its turns -/
theorem Course.cut {b b' : Battle G} {ts ts' : List (Turn G)} {t : Turn G} (h : Course b (ts ++ t :: ts') b') :
    Course b ts t.before ∧ t.before.nextTurn? = some t ∧ Course t.after ts' b' := by
  induction ts generalizing b with
  | nil =>
    cases h with
    | turn hgrown htaken hcourse => exact ⟨.rest hgrown, htaken, hcourse⟩
  | cons s ts ih =>
    cases h with
    | turn hgrown htaken hcourse =>
      obtain ⟨hfirst, ht, hlast⟩ := ih hcourse
      exact ⟨.turn hgrown htaken hfirst, ht, hlast⟩

/-- a course counts its turns -/
theorem Course.steps {b b' : Battle G} {ts : List (Turn G)} (h : Course b ts b') : b'.steps = b.steps + ts.length := by
  induction h with
  | rest hgrown => exact hgrown.steps
  | @turn b b' t ts hgrown htaken _ ih =>
    obtain ⟨turn, w, -, -, -, -, hstep, hafter⟩ := nextTurn?_eq_some htaken
    have hturn : t.after.steps = b.steps + 1 := by
      rw [hafter, hstep, conclude_steps, takeTurn_steps, hgrown.steps]
    calc b'.steps = t.after.steps + ts.length := ih
      _ = b.steps + (1 + ts.length) := by rw [hturn, Nat.add_assoc]
      _ = b.steps + (t :: ts).length := by rw [List.length_cons, Nat.add_comm 1]

theorem step_course (b : Battle G) : Course b b.nextTurn?.toList b.step.2 := by
  cases h : b.nextTurn? with
  | none =>
    obtain ⟨-, hwarriors, hturn, hsteps⟩ := step_of_no_turn h
    exact .rest ⟨hwarriors ▸ List.prefix_refl _, hturn, hsteps⟩
  | some t =>
    obtain ⟨turn, w, -, -, -, hbefore, -, hafter⟩ := nextTurn?_eq_some h
    rw [← hbefore] at h
    exact .turn (hbefore ▸ Grown.refl b) h (.rest (hafter ▸ Grown.refl _))

theorem run_course (b : Battle G) (budget : Nat) : Course b (b.runTurns budget) (b.run budget).2 := by
  induction budget generalizing b with
  | zero => exact .rest (Grown.refl b)
  | succ budget ih =>
    have hfirst := step_course b
    simp only [runTurns, run]
    rcases hstep : b.step with ⟨_ | _, next⟩
    · rw [hstep] at hfirst
      exact hfirst
    · rw [hstep] at hfirst
      exact hfirst.append (ih next)

variable [WordSource G]

/-- a request that does not open the game takes its turns, and otherwise only adds to the row -/
theorem perform_course (b : Battle G) {request : Request} (hstart : request ≠ .start) :
    Course b (b.requestTurns request) (b.perform request).2 := by
  cases request with
  | load id process code =>
    rcases load_cases b id process code with ⟨refusal, generator, h⟩ | ⟨generator, start, -, -, -, h⟩
    · simp only [perform, h]
      exact .rest ⟨List.prefix_refl _, rfl, rfl⟩
    · simp only [perform, h]
      exact .rest ⟨List.prefix_append _ _, rfl, rfl⟩
  | loadAt id process code address =>
    rcases loadAt_cases b id process code address with ⟨refusal, h⟩ | ⟨-, -, -, h⟩
    · simp only [perform, h]
      exact .rest (Grown.refl b)
    · simp only [perform, h]
      exact .rest ⟨List.prefix_append _ _, rfl, rfl⟩
  | start => exact absurd rfl hstart
  | step => exact step_course b
  | run budget => exact run_course b budget

theorem turns_course (b : Battle G) {requests : List Request} (hstart : .start ∉ requests) :
    Course b (b.turns requests) (b.after requests) := by
  induction requests generalizing b with
  | nil => exact .rest (Grown.refl b)
  | cons request rest ih =>
    have hne : request ≠ .start := fun heq => hstart (heq ▸ List.mem_cons_self)
    have hrest : .start ∉ rest := fun hmem => hstart (List.mem_cons_of_mem request hmem)
    exact (perform_course b hne).append (ih _ hrest)

/-! ## Waiting for the next turn -/

omit [WordSource G] in
/-- a dead warrior takes no turn, and stays as it is -/
theorem Course.dead_stays {b b' : Battle G} {ts : List (Turn G)} (h : Course b ts b') {q : Nat} {w : Warrior}
    (hq : b.warriors[q]? = some w) (hdead : w.alive = false) :
    (∀ t ∈ ts, t.place ≠ q) ∧ b'.warriors[q]? = some w := by
  induction h with
  | rest hgrown => exact ⟨by simp, hgrown.getElem? hq⟩
  | @turn b b' t ts hgrown htaken _ ih =>
    obtain ⟨hafter, v, hv, halive, hwarriors, -⟩ := step_of_turn htaken
    have hq' := hgrown.getElem? hq
    have hne : t.place ≠ q := by
      rintro rfl
      rw [hv] at hq'
      cases hq'
      simp [halive] at hdead
    have hnow : t.after.warriors[q]? = some w := by
      rw [hafter, hwarriors, List.getElem?_set_ne hne, hq']
    obtain ⟨hnone, hlater⟩ := ih hnow
    exact ⟨List.forall_mem_cons.2 ⟨hne, hnone⟩, hlater⟩

/-- the warrior at place `q` is alive -/
def AliveAt (b : Battle G) (q : Nat) : Prop := ∃ w, b.warriors[q]? = some w ∧ w.alive = true

omit [WordSource G] in
theorem AliveAt.lt {b : Battle G} {q : Nat} (h : b.AliveAt q) : q < b.warriors.length := by
  obtain ⟨w, hw, -⟩ := h
  exact (List.getElem?_eq_some_iff.1 hw).1

/-- a place from a bound on is none of the places below it -/
theorem not_mem_of_forall_lt {places : List Nat} {bound q : Nat} (h : ∀ x ∈ places, x < bound) (hq : bound ≤ q) :
    q ∉ places := by
  intro hmem
  have := h q hmem
  omega

/-- places that ascend up to a place go on ascending with it -/
theorem ascending_snoc {places : List Nat} {i : Nat} (h : places.Pairwise (· < ·)) (hlt : ∀ x ∈ places, x < i) :
    (places ++ [i]).Pairwise (· < ·) ∧ ∀ x ∈ places ++ [i], x < i + 1 := by
  constructor
  · refine List.pairwise_append.2 ⟨h, List.pairwise_singleton _ _, ?_⟩
    intro x hx y hy
    rw [List.mem_singleton.1 hy]
    exact hlt x hx
  · intro x hx
    rcases List.mem_append.1 hx with hx | hx
    · exact Nat.lt_succ_of_lt (hlt x hx)
    · rw [List.mem_singleton.1 hx]
      exact Nat.lt_succ_self i

/-- where the game stands since the warrior at place `p` had its turn and left `s`: the warriors at the places `high`
and then those at the places `low` have had theirs -/
structure Waiting (s : Battle G) (p : Nat) (high low : List Nat) (b : Battle G) : Prop where
  /-- the turn goes up from `p` and, when it has come round, up to `p`; it has skipped nobody who was alive -/
  sweep : ∃ turn, b.turn = some turn ∧ turn < b.warriors.length ∧
    ((p < turn ∧ low = [] ∧ (∀ x ∈ high, x < turn) ∧ ∀ q, p < q → q < turn → s.AliveAt q → q ∈ high) ∨
      (turn ≤ p ∧ (∀ x ∈ low, x < turn) ∧ (∀ q, p < q → s.AliveAt q → q ∈ high) ∧
        ∀ q < turn, s.AliveAt q → q ∈ low))
  above : ∀ x ∈ high, p < x
  ascending : high.Pairwise (· < ·) ∧ low.Pairwise (· < ·)
  /-- whoever has had no turn is as it was -/
  others : ∀ q, q ∉ high → q ∉ low → ∀ w, s.warriors[q]? = some w → b.warriors[q]? = some w
  /-- the dead have had none -/
  dead : ∀ q w, s.warriors[q]? = some w → w.alive = false → q ∉ high ∧ q ∉ low

omit [WordSource G] in
/-- a turn in terms of places: who is passed over is not alive -/
theorem turn_of_taken {t : Turn G} (h : t.before.nextTurn? = some t) :
    ∃ turn, t.before.turn = some turn ∧ t.before.AliveAt t.place ∧ t.place < t.before.warriors.length ∧
      t.after.turn = some ((t.place + 1) % t.before.warriors.length) ∧
      t.after.warriors.length = t.before.warriors.length ∧
      (∀ q, q ≠ t.place → t.after.warriors[q]? = t.before.warriors[q]?) ∧
      ((turn ≤ t.place ∧ ∀ q, turn ≤ q → q < t.place → ¬ t.before.AliveAt q) ∨
        ((∀ q, turn ≤ q → ¬ t.before.AliveAt q) ∧ ∀ q < t.place, ¬ t.before.AliveAt q)) := by
  obtain ⟨turn, w, hturn, -, hnext, -, hstep, hafter⟩ := nextTurn?_eq_some h
  obtain ⟨hw, halive, hpassed⟩ := nextLive?_eq_some hnext
  obtain ⟨hlt, -⟩ := List.getElem?_eq_some_iff.1 hw
  have hdead : ∀ q, (∀ v, t.before.warriors[q]? = some v → v.alive = false) → ¬ t.before.AliveAt q := by
    rintro q hq ⟨v, hv, hvalive⟩
    simp [hq v hv] at hvalive
  refine ⟨turn, hturn, ⟨w, hw, halive⟩, hlt, ?_, ?_, ?_, ?_⟩
  · rw [hafter, hstep, conclude_turn, takeTurn_turn]
  · rw [hafter, hstep, conclude_warriors, takeTurn_warriors, List.length_set]
  · intro q hne
    rw [hafter, hstep, conclude_warriors, takeTurn_warriors, List.getElem?_set_ne (Ne.symm hne)]
  · rcases hpassed with ⟨hle, hskip⟩ | ⟨hback, hfront⟩
    · exact Or.inl ⟨hle, fun q h₁ h₂ => hdead q (hskip q h₁ h₂)⟩
    · exact Or.inr ⟨fun q hq => hdead q (hback q hq), fun q hq => hdead q (hfront q hq)⟩

namespace Waiting

omit [WordSource G]

variable {s b b' : Battle G} {p : Nat} {high low : List Nat} {t : Turn G}

/-- right after its turn nobody else has had one -/
theorem begin (htaken : t.before.nextTurn? = some t) : Waiting t.after t.place [] [] t.after := by
  obtain ⟨turn, -, -, hlt, hafter, hlength, -, -⟩ := turn_of_taken htaken
  refine ⟨⟨_, hafter, ?_, ?_⟩, by simp, ⟨List.Pairwise.nil, List.Pairwise.nil⟩, fun q _ _ w hw => hw, by simp⟩
  · rw [hlength]
    exact Nat.mod_lt _ (by omega)
  · rcases Nat.lt_or_ge (t.place + 1) t.before.warriors.length with hin | hout
    · rw [Nat.mod_eq_of_lt hin]
      exact Or.inl ⟨by omega, rfl, by simp, fun q h₁ h₂ => by omega⟩
    · -- the last in the row: the turn has come round, and nobody stands behind
      have hend : t.place + 1 = t.before.warriors.length := by omega
      rw [hend, Nat.mod_self]
      refine Or.inr ⟨by omega, by simp, ?_, fun q hq => by omega⟩
      intro q hq halive
      have := halive.lt
      omega

/-- whoever was alive and has had no turn is alive -/
theorem alive (h : Waiting s p high low b) {q : Nat} (hq : s.AliveAt q) (hhigh : q ∉ high) (hlow : q ∉ low) :
    b.AliveAt q := by
  obtain ⟨w, hw, halive⟩ := hq
  exact ⟨w, h.others q hhigh hlow w hw, halive⟩

theorem low_lt (h : Waiting s p high low b) : ∀ x ∈ low, x < p := by
  obtain ⟨turn, -, -, ⟨-, rfl, -, -⟩ | ⟨hle, hlow, -, -⟩⟩ := h.sweep
  · simp
  · intro x hx
    have := hlow x hx
    omega

theorem not_mem_high (h : Waiting s p high low b) {q : Nat} (hq : q ≤ p) : q ∉ high := by
  intro hmem
  have := h.above q hmem
  omega

theorem self_alive (h : Waiting s p high low b) (hp : s.AliveAt p) : b.AliveAt p :=
  h.alive hp (h.not_mem_high (Nat.le_refl p)) (not_mem_of_forall_lt h.low_lt (Nat.le_refl p))

theorem grown (h : Waiting s p high low b) (hgrown : Grown b b') : Waiting s p high low b' := by
  obtain ⟨turn, hturn, hlt, hsweep⟩ := h.sweep
  have hlength := hgrown.warriors.length_le
  exact ⟨⟨turn, hgrown.turn.trans hturn, by omega, hsweep⟩, h.above, h.ascending,
    fun q hhigh hlow w hw => hgrown.getElem? (h.others q hhigh hlow w hw), h.dead⟩

/-- a turn concerns nobody but the warrior that takes it, and it was alive all the time -/
theorem others_turn (h : Waiting s p high low t.before) (htaken : t.before.nextTurn? = some t) (high' low' : List Nat)
    (hmem : ∀ x, x ∈ high' ∨ x ∈ low' ↔ (x ∈ high ∨ x ∈ low) ∨ x = t.place) :
    (∀ q, q ∉ high' → q ∉ low' → ∀ w, s.warriors[q]? = some w → t.after.warriors[q]? = some w) ∧
      ∀ q w, s.warriors[q]? = some w → w.alive = false → q ∉ high' ∧ q ∉ low' := by
  obtain ⟨turn, -, ⟨v, hv, halive⟩, -, -, -, hothers, -⟩ := turn_of_taken htaken
  constructor
  · intro q hhigh hlow w hw
    have hnone : ¬ ((q ∈ high ∨ q ∈ low) ∨ q = t.place) := by
      rw [← hmem]
      tauto
    push Not at hnone
    rw [hothers q hnone.2]
    exact h.others q hnone.1.1 hnone.1.2 w hw
  · intro q w hw hdead
    obtain ⟨hhigh, hlow⟩ := h.dead q w hw hdead
    have hne : q ≠ t.place := by
      rintro rfl
      have hsame := h.others _ hhigh hlow w hw
      rw [hv] at hsame
      cases hsame
      simp [halive] at hdead
    have hnone := mt (hmem q).1 (by tauto)
    tauto

/-- the turn goes on upwards: the next place behind `p` -/
theorem turn_above (h : Waiting s p high [] t.before) (htaken : t.before.nextTurn? = some t) {turn : Nat}
    (hpt : p < turn) (hle : turn ≤ t.place) (hhigh : ∀ x ∈ high, x < turn)
    (hdone : ∀ q, p < q → q < turn → s.AliveAt q → q ∈ high)
    (hskip : ∀ q, turn ≤ q → q < t.place → ¬ t.before.AliveAt q) :
    Waiting s p (high ++ [t.place]) [] t.after := by
  obtain ⟨-, -, -, hlt, hafter, hlength, -, -⟩ := turn_of_taken htaken
  obtain ⟨hothers, hdead⟩ := h.others_turn htaken (high ++ [t.place]) [] (by simp)
  -- whoever is alive between `p` and here has had its turn
  have hupto : ∀ q, p < q → q ≤ t.place → s.AliveAt q → q ∈ high ++ [t.place] := by
    intro q hpq hqt halive
    rw [List.mem_append, List.mem_singleton]
    by_cases hq : q < turn
    · exact Or.inl (hdone q hpq hq halive)
    · right
      by_contra hne
      have hnot : q ∉ high := not_mem_of_forall_lt hhigh (by omega)
      exact hskip q (by omega) (by omega) (h.alive halive hnot (by simp))
  have hfirst : ∀ x ∈ high, x < t.place := fun x hx => Nat.lt_of_lt_of_le (hhigh x hx) hle
  obtain ⟨hascending, hbelow⟩ := ascending_snoc h.ascending.1 hfirst
  refine ⟨⟨_, hafter, by rw [hlength]; exact Nat.mod_lt _ (by omega), ?_⟩, ?_, ⟨hascending, List.Pairwise.nil⟩, hothers,
    hdead⟩
  · rcases Nat.lt_or_ge (t.place + 1) t.before.warriors.length with hin | hout
    · rw [Nat.mod_eq_of_lt hin]
      exact Or.inl ⟨by omega, rfl, hbelow, fun q h₁ h₂ => hupto q h₁ (by omega)⟩
    · have hend : t.place + 1 = t.before.warriors.length := by omega
      rw [hend, Nat.mod_self]
      refine Or.inr ⟨Nat.zero_le _, by simp, fun q hpq halive => hupto q hpq ?_ halive, fun q hq => by omega⟩
      by_contra hqt
      -- nobody stands behind the last
      have hnot : q ∉ high := not_mem_of_forall_lt hhigh (by omega)
      have hqlt := (h.alive halive hnot (by simp)).lt
      omega
  · intro x hx
    rcases List.mem_append.1 hx with hx | hx
    · exact h.above x hx
    · rw [List.mem_singleton.1 hx]
      omega

/-- the turn has come round: the next place in front of `p` -/
theorem turn_below (h : Waiting s p high low t.before) (htaken : t.before.nextTurn? = some t) (hp : s.AliveAt p)
    (hlt : t.place < p) (hlow : ∀ x ∈ low, x < t.place) (hhigh : ∀ q, p < q → s.AliveAt q → q ∈ high)
    (hdone : ∀ q < t.place, s.AliveAt q → q ∈ low) : Waiting s p high (low ++ [t.place]) t.after := by
  obtain ⟨-, -, -, -, hafter, hlength, -, -⟩ := turn_of_taken htaken
  obtain ⟨hothers, hdead⟩ := h.others_turn htaken high (low ++ [t.place]) fun x => by simp [or_assoc]
  have hplt : p < t.before.warriors.length := (h.self_alive hp).lt
  obtain ⟨hascending, hbelow⟩ := ascending_snoc h.ascending.2 hlow
  have hmod : (t.place + 1) % t.before.warriors.length = t.place + 1 := Nat.mod_eq_of_lt (by omega)
  rw [hmod] at hafter
  refine ⟨⟨_, hafter, by omega, Or.inr ⟨hlt, hbelow, hhigh, ?_⟩⟩, h.above, ⟨h.ascending.1, hascending⟩, hothers, hdead⟩
  intro q hq halive
  rw [List.mem_append, List.mem_singleton]
  by_cases heq : q = t.place
  · exact Or.inr heq
  · exact Or.inl (hdone q (by omega) halive)

/-- **One turn.** The turn of another warrior adds its place to those above or to those below. -/
theorem turn (h : Waiting s p high low t.before) (htaken : t.before.nextTurn? = some t) (hp : s.AliveAt p)
    (hne : t.place ≠ p) :
    ∃ high' low', high' ++ low' = high ++ low ++ [t.place] ∧ Waiting s p high' low' t.after := by
  obtain ⟨turn, hturn, -, hsweep⟩ := h.sweep
  obtain ⟨turn', hturn', -, -, -, -, -, hpassed⟩ := turn_of_taken htaken
  rw [hturn] at hturn'
  cases hturn'
  have hself := h.self_alive hp
  rcases hsweep with ⟨hpt, rfl, hhigh, hdone⟩ | ⟨htp, hlow, hhigh, hdone⟩
  · rcases hpassed with ⟨hle, hskip⟩ | ⟨hback, hfront⟩
    · exact ⟨high ++ [t.place], [], by simp, h.turn_above htaken hpt hle hhigh hdone hskip⟩
    · -- nobody is alive from the turn on, so it comes round, and `p` itself is the first it could meet
      have hlt : t.place < p := by
        rcases Nat.lt_or_gt_of_ne hne with hlt | hgt
        · exact hlt
        · exact absurd hself (hfront p hgt)
      have hall : ∀ q, p < q → s.AliveAt q → q ∈ high := by
        intro q hpq halive
        by_cases hq : q < turn
        · exact hdone q hpq hq halive
        · by_contra hnot
          exact hback q (Nat.le_of_not_lt hq) (h.alive halive hnot (by simp))
      refine ⟨high, [t.place], by simp, h.turn_below htaken hp hlt (by simp) hall ?_⟩
      intro q hq halive
      exact absurd (h.alive halive (h.not_mem_high (by omega)) (by simp)) (hfront q hq)
  · rcases hpassed with ⟨hle, hskip⟩ | ⟨hback, -⟩
    · have hlt : t.place < p := by
        rcases Nat.lt_or_gt_of_ne hne with hlt | hgt
        · exact hlt
        · exact absurd hself (hskip p htp hgt)
      have hbefore : ∀ x ∈ low, x < t.place := fun x hx => Nat.lt_of_lt_of_le (hlow x hx) hle
      refine ⟨high, low ++ [t.place], by simp, h.turn_below htaken hp hlt hbefore hhigh ?_⟩
      intro q hq halive
      by_cases hqt : q < turn
      · exact hdone q hqt halive
      · by_contra hnot
        exact hskip q (Nat.le_of_not_lt hqt) hq (h.alive halive (h.not_mem_high (by omega)) hnot)
    · exact absurd hself (hback p htp)

/-- **A course of turns of others**: their places, in order, are those above and then those below. -/
theorem course {ts : List (Turn G)} (h : Waiting s p high low b) (hcourse : Course b ts b') (hp : s.AliveAt p)
    (hne : ∀ t ∈ ts, t.place ≠ p) :
    ∃ high' low', high' ++ low' = high ++ low ++ ts.map (·.place) ∧ Waiting s p high' low' b' := by
  induction hcourse generalizing high low with
  | rest hgrown => exact ⟨high, low, by simp, h.grown hgrown⟩
  | @turn b b' t ts hgrown htaken _ ih =>
    obtain ⟨hfirst, hrest⟩ := List.forall_mem_cons.1 hne
    obtain ⟨high₁, low₁, hadded, hnow⟩ := (h.grown hgrown).turn htaken hp hfirst
    obtain ⟨high₂, low₂, hall, hlast⟩ := ih hnow hrest
    exact ⟨high₂, low₂, by rw [hall, hadded, List.map_cons, List.append_assoc, List.singleton_append], hlast⟩

/-- when the turn is back at `p`, everybody who was alive has had its own -/
theorem complete (h : Waiting s p high low t.before) (htaken : t.before.nextTurn? = some t) (hplace : t.place = p)
    (hp : s.AliveAt p) {q : Nat} (hne : q ≠ p) (hq : s.AliveAt q) : q ∈ high ++ low := by
  obtain ⟨turn, hturn, -, hsweep⟩ := h.sweep
  obtain ⟨turn', hturn', -, -, -, -, -, hpassed⟩ := turn_of_taken htaken
  rw [hturn] at hturn'
  cases hturn'
  rw [hplace] at hpassed
  rw [List.mem_append]
  by_contra hnone
  push Not at hnone
  have halive := h.alive hq hnone.1 hnone.2
  rcases hsweep with ⟨hpt, -, -, hdone⟩ | ⟨htp, -, hhigh, hdone⟩
  · rcases hpassed with ⟨hle, -⟩ | ⟨hback, hfront⟩
    · omega
    · rcases Nat.lt_or_gt_of_ne hne with hlt | hgt
      · exact hfront q hlt halive
      · by_cases hqt : q < turn
        · exact hnone.1 (hdone q hgt hqt hq)
        · exact hback q (Nat.le_of_not_lt hqt) halive
  · rcases hpassed with ⟨-, hskip⟩ | ⟨hback, -⟩
    · rcases Nat.lt_or_gt_of_ne hne with hlt | hgt
      · by_cases hqt : q < turn
        · exact hnone.2 (hdone q hqt hq)
        · exact hskip q (Nat.le_of_not_lt hqt) hlt halive
      · exact hnone.1 (hhigh q hgt hq)
    · exact hback p htp (h.self_alive hp)

end Waiting

/-! ## Main result -/

omit [WordSource G] in
/-- whoever has two turns in a course is alive in between -/
theorem Course.alive_between {b b' : Battle G} {before between after : List (Turn G)} {s t : Turn G}
    (h : Course b (before ++ s :: (between ++ t :: after)) b') (hplace : t.place = s.place) :
    s.after.AliveAt s.place := by
  obtain ⟨-, htaken, hlater⟩ := h.cut
  obtain ⟨-, -, -, hlt, -, hlength, -, -⟩ := turn_of_taken htaken
  rw [← hlength] at hlt
  refine ⟨s.after.warriors[s.place], List.getElem?_eq_getElem hlt, ?_⟩
  by_contra hdead
  simp only [Bool.not_eq_true] at hdead
  exact (hlater.dead_stays (List.getElem?_eq_getElem hlt) hdead).1 t (by simp) hplace

omit [WordSource G] in
/-- between two turns of a warrior the others have theirs in cyclic order, and nobody is left out or has two -/
theorem Course.fair {b b' : Battle G} {before between after : List (Turn G)} {s t : Turn G}
    (h : Course b (before ++ s :: (between ++ t :: after)) b') (hplace : t.place = s.place)
    (hothers : ∀ u ∈ between, u.place ≠ s.place) :
    ∃ high low, between.map (·.place) = high ++ low ∧ (∀ x ∈ high, s.place < x) ∧ (∀ x ∈ low, x < s.place) ∧
      high.Pairwise (· < ·) ∧ low.Pairwise (· < ·) ∧
      (∀ q, q ≠ s.place → s.after.AliveAt q → q ∈ high ++ low) ∧
      ∀ q w, s.after.warriors[q]? = some w → w.alive = false → q ∉ high ++ low := by
  have hp := h.alive_between hplace
  obtain ⟨-, hs, hlater⟩ := h.cut
  obtain ⟨hbetween, ht, -⟩ := hlater.cut
  obtain ⟨high, low, hall, hwaiting⟩ := (Waiting.begin hs).course hbetween hp hothers
  refine ⟨high, low, hall.symm, hwaiting.above, hwaiting.low_lt, hwaiting.ascending.1, hwaiting.ascending.2, ?_, ?_⟩
  · intro q hne halive
    exact hwaiting.complete ht hplace hp hne halive
  · intro q w hw hdead
    obtain ⟨hhigh, hlow⟩ := hwaiting.dead q w hw hdead
    simp [hhigh, hlow]

/-- **Turn order.** Start a battle, and then load, step and run as you like without starting it again.
- The turns taken are the steps made, each the instruction of a live warrior.
- The first turn is that of the first live warrior.
- Between two turns of one warrior, and none of its own in between, every other that was alive after the first has one
  turn, one loaded since at most one, and a dead one none; the turns go up from its place, and then, from the front, up
  to it. -/
theorem turn_order_law {b₀ b : Battle G} (hopened : b₀.start = .ok b) {requests : List Request}
    (hstart : .start ∉ requests) :
    let ts := b.turns requests
    ((b.after requests).steps = b.steps + ts.length ∧ ∀ t ∈ ts, ∃ w, t.before.warriors[t.place]? = some w ∧
      w.alive = true ∧ t.before.step = (t.before.takeTurn w t.place).conclude ∧ t.after = t.before.step.2) ∧
    (∀ t rest, ts = t :: rest → t.before.AliveAt t.place ∧ ∀ q < t.place, ¬ t.before.AliveAt q) ∧
    ∀ before s between t after, ts = before ++ s :: (between ++ t :: after) → t.place = s.place →
      (∀ u ∈ between, u.place ≠ s.place) →
      (∀ q, q ≠ s.place → s.after.AliveAt q → (between.map (·.place)).count q = 1) ∧
      (∀ q, s.after.warriors.length ≤ q → (between.map (·.place)).count q ≤ 1) ∧
      (∀ q w, s.after.warriors[q]? = some w → w.alive = false → (between.map (·.place)).count q = 0) ∧
      ∃ high low, between.map (·.place) = high ++ low ∧ (∀ x ∈ high, s.place < x) ∧ (∀ x ∈ low, x < s.place) ∧
        high.Pairwise (· < ·) ∧ low.Pairwise (· < ·) := by
  intro ts
  have hcourse : Course b ts (b.after requests) := turns_course b hstart
  refine ⟨⟨hcourse.steps, ?_⟩, ?_, ?_⟩
  · intro t ht
    obtain ⟨before, after, hcut⟩ := List.append_of_mem ht
    rw [hcut] at hcourse
    obtain ⟨turn, w, -, -, hnext, -, hstep, hafter⟩ := nextTurn?_eq_some hcourse.cut.2.1
    obtain ⟨hw, halive, -⟩ := nextLive?_eq_some hnext
    exact ⟨w, hw, halive, hstep, hafter⟩
  · intro t rest hcut
    rw [hcut] at hcourse
    have hturn : b.turn = some 0 := by
      unfold start at hopened
      split at hopened
      · cases hopened
      · cases hopened
        rfl
    cases hcourse with
    | turn hgrown htaken _ =>
      obtain ⟨turn, hturn', halive, -, -, -, -, hpassed⟩ := turn_of_taken htaken
      rw [hgrown.turn, hturn] at hturn'
      cases hturn'
      rcases hpassed with ⟨-, hskip⟩ | ⟨-, hfront⟩
      · exact ⟨halive, fun q hq => hskip q (Nat.zero_le q) hq⟩
      · exact ⟨halive, hfront⟩
  · intro before s between t after hcut hplace hothers
    rw [hcut] at hcourse
    obtain ⟨high, low, hall, habove, hbelow, hhigh, hlow, halive, hdead⟩ := hcourse.fair hplace hothers
    -- the places differ: those above ascend, those below ascend, and no place is both
    have hnodup : (high ++ low).Nodup := by
      refine List.nodup_append.2 ⟨hhigh.imp Nat.ne_of_lt, hlow.imp Nat.ne_of_lt, ?_⟩
      intro x hx y hy
      have := habove x hx
      have := hbelow y hy
      omega
    rw [hall]
    exact ⟨fun q hne hq => List.count_eq_one_of_mem hnodup (halive q hne hq),
      fun q _ => List.nodup_iff_count_le_one.1 hnodup q,
      fun q w hw hq => List.count_eq_zero_of_not_mem (hdead q w hw hq),
      high, low, rfl, habove, hbelow, hhigh, hlow⟩

/-- a bomb between two programs that jump on the spot -/
def bombBetween : Battle Random.Counter :=
  Battle.after { rules := { coreSize := 5 }, core := .blank 5, generator := ⟨0, 1⟩ }
    [.loadAt 0 0 [Cell.jmp 0] 0, .loadAt 1 0 [Cell.data] 1, .loadAt 2 0 [Cell.jmp 0] 2]

/-- the bomb has its only turn between the first two turns of the program in front of it -/
theorem turn_order_law_bomb :
    let b : Battle Random.Counter := { bombBetween with turn := some 0 }
    let b₁ := b.step.2
    let b₂ := b₁.step.2
    let b₃ := b₂.step.2
    let ts : List (Turn Random.Counter) := [⟨0, b, b₁⟩] ++ [⟨1, b₁, b₂⟩, ⟨2, b₂, b₃⟩] ++ [⟨0, b₃, b₃.step.2⟩]
    bombBetween.start = .ok b ∧ Request.start ∉ [Request.run 4] ∧ b.turns [.run 4] = ts ∧
      (([⟨1, b₁, b₂⟩, ⟨2, b₂, b₃⟩] : List (Turn Random.Counter)).map (·.place)).count 1 = 1 := by
  intro b b₁ b₂ b₃ ts
  have hopened : bombBetween.start = .ok b := by rfl
  have hstart : Request.start ∉ [Request.run 4] := by simp
  have hts : b.turns [.run 4] = ts := by decide +kernel
  obtain ⟨-, -, hbetween⟩ := turn_order_law hopened hstart
  obtain ⟨hone, -⟩ := hbetween [] ⟨0, b, b₁⟩ [⟨1, b₁, b₂⟩, ⟨2, b₂, b₃⟩] ⟨0, b₃, b₃.step.2⟩ [] hts rfl
    (by decide +kernel)
  have halive : b₁.AliveAt 1 := ⟨_, rfl, by decide +kernel⟩
  exact ⟨hopened, hstart, hts, hone 1 (by decide) halive⟩

end Battle

end CoreWar
