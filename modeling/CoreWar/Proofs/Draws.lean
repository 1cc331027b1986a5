/-
Draws: a random loading is a loading at the first drawn place that has room.

A random loading does not go through a loading at an address: it looks for room and puts the program there itself, in
a loop with a bound. Which places it tries is a matter of the generator alone, so they can be laid out beforehand: the
draw after `n` others is what the generator gives once it has gone on by `n` draws. The loop throws away draws that miss
and stops at the first that does not, and what it does there is what a loading at that address does.

- `drawStart_of_misses`: draws that miss are thrown away and nothing else happens.
- `drawStart_of_room`, `drawStart_of_misses_all`, `drawStart_of_no_draw`: the three ways in which the loop can end.
- `load_law`: a random loading against loadings at the places drawn.
-/
import CoreWar.Proofs.Circle
import CoreWar.Proofs.Moves
import CoreWar.Random.Counter

namespace CoreWar

namespace Random

variable {G : Type} [WordSource G]

/-- the generator after so many draws below the bound -/
def afterDraws (bound : Nat) : Nat → G → G
  | 0, g => g
  | n + 1, g => afterDraws bound n (drawBelow? bound g).2

/-- what the draw after `n` others comes to -/
def draw? (bound n : Nat) (g : G) : Option Nat := (drawBelow? bound (afterDraws bound n g)).1

theorem afterDraws_succ (bound n : Nat) (g : G) :
    afterDraws bound (n + 1) g = (drawBelow? bound (afterDraws bound n g)).2 := by
  induction n generalizing g with
  | zero => rfl
  | succ n ih => exact ih (drawBelow? bound g).2

/-- the draw after `n` others, with the generator as it leaves it -/
theorem drawBelow?_afterDraws (bound n : Nat) (g : G) :
    drawBelow? bound (afterDraws bound n g) = (draw? bound n g, afterDraws bound (n + 1) g) := by
  rw [afterDraws_succ]
  rfl

theorem draw?_lt {bound n start : Nat} {g : G} (h : draw? bound n g = some start) : start < bound := by
  have hdraw := drawBelow?_afterDraws bound n g
  rw [h] at hdraw
  exact drawWithin?_lt hdraw

end Random

namespace Battle

variable {G : Type}

/-! ## Room for a program -/

/-- all the cells that must be free for a code of this length at `start` are free -/
def RoomAt (b : Battle G) (length start : Nat) : Prop := b.core.firstOccupied? b.rules.placement start length = none

instance (b : Battle G) (length start : Nat) : Decidable (b.RoomAt length start) :=
  inferInstanceAs (Decidable (_ = none))

section

variable {b : Battle G} {id : ProgramId} {process : ProcessId} {code : List Cell} {start : Nat}

/-- a code that is not loadable is turned down in the same way at every address -/
theorem loadAt_of_not_loadable {refusal : Refusal} (h : b.checkLoadable id code = .error refusal) (address : Int) :
    b.loadAt id process code address = .error refusal := by
  rw [loadAt, h]
  rfl

variable (hload : b.checkLoadable id code = .ok ()) (hstart : start < b.core.size)
include hload hstart

theorem loadAt_of_room (hroom : b.RoomAt code.length start) :
    b.loadAt id process code start = .ok (b.place id process code start) := by
  unfold RoomAt at hroom
  rw [loadAt, hload, Core.index_natCast hstart]
  simp only [bind, Except.bind, hroom]

variable (process) in
theorem loadAt_of_no_room (hroom : ¬ b.RoomAt code.length start) :
    ∃ place, b.loadAt id process code start = .error (.occupied place) := by
  obtain ⟨place, hplace⟩ := Option.ne_none_iff_exists'.1 hroom
  rw [loadAt, hload, Core.index_natCast hstart]
  simp only [bind, Except.bind, hplace]
  exact ⟨place, rfl⟩

/-- a loading at a place of the core is refused iff there is no room -/
theorem loadAt_refused_iff :
    (∃ refusal, b.loadAt id process code start = .error refusal) ↔ ¬ b.RoomAt code.length start := by
  constructor
  · rintro ⟨refusal, h⟩ hroom
    rw [loadAt_of_room hload hstart hroom] at h
    cases h
  · intro hroom
    obtain ⟨place, h⟩ := loadAt_of_no_room process hload hstart hroom
    exact ⟨_, h⟩

/-- a loading at a place of the core succeeds iff there is room -/
theorem loadAt_eq_ok_iff {b' : Battle G} :
    b.loadAt id process code start = .ok b' ↔ b.RoomAt code.length start ∧ b' = b.place id process code start := by
  by_cases hroom : b.RoomAt code.length start
  · rw [loadAt_of_room hload hstart hroom, Except.ok.injEq]
    constructor
    · intro heq
      exact ⟨hroom, heq.symm⟩
    · intro hok
      exact hok.2.symm
  · obtain ⟨place, h⟩ := loadAt_of_no_room process hload hstart hroom
    rw [h]
    constructor
    · intro hok
      cases hok
    · intro hok
      exact absurd hok.1 hroom

end

/-! ## The search for a start -/

variable [WordSource G]

/-- the draw after `n` others comes to a place without room -/
def Misses (b : Battle G) (length : Nat) (g : G) (n : Nat) : Prop :=
  ∃ start, Random.draw? b.core.size n g = some start ∧ ¬ b.RoomAt length start

section

variable {b : Battle G} {length : Nat} {g : G}

/-- draws that miss are thrown away -/
theorem drawStart_of_misses {n : Nat} (h : ∀ m < n, b.Misses length g m) (attempts : Nat) :
    b.drawStart length (n + attempts) g = b.drawStart length attempts (Random.afterDraws b.core.size n g) := by
  induction n generalizing g with
  | zero => rw [Nat.zero_add]; rfl
  | succ n ih =>
    obtain ⟨start, hdraw, hroom⟩ := h 0 (Nat.succ_pos n)
    obtain ⟨place, hplace⟩ := Option.ne_none_iff_exists'.1 hroom
    have hfirst := Random.drawBelow?_afterDraws b.core.size 0 g
    rw [hdraw] at hfirst
    -- what is left to be drawn is drawn by the generator as the first draw leaves it
    have hlater := ih (g := (Random.drawBelow? b.core.size g).2) fun m hm => h (m + 1) (by omega)
    have hcount : n + 1 + attempts = n + attempts + 1 := by omega
    rw [hcount, drawStart, show Random.drawBelow? b.core.size g = _ from hfirst]
    simp only [hplace]
    exact hlater

theorem drawStart_of_room {k attempts start : Nat} (hk : k < attempts) (h : ∀ m < k, b.Misses length g m)
    (hdraw : Random.draw? b.core.size k g = some start) (hroom : b.RoomAt length start) :
    b.drawStart length attempts g = (.ok start, Random.afterDraws b.core.size (k + 1) g) := by
  obtain ⟨rest, rfl⟩ := Nat.exists_eq_add_of_lt hk
  unfold RoomAt at hroom
  rw [Nat.add_assoc, drawStart_of_misses h, drawStart, Random.drawBelow?_afterDraws, hdraw]
  simp only [hroom]

theorem drawStart_of_misses_all {attempts : Nat} (h : ∀ m < attempts, b.Misses length g m) :
    b.drawStart length attempts g =
      (.error (.noPlacement b.rules.maxPlacementAttempts), Random.afterDraws b.core.size attempts g) := by
  have hall := drawStart_of_misses h 0
  rw [Nat.add_zero] at hall
  rw [hall, drawStart]

end

section

variable {b : Battle G} {id : ProgramId} {process : ProcessId} {code : List Cell}

theorem load_of_not_loadable {refusal : Refusal} (h : b.checkLoadable id code = .error refusal) :
    b.load id process code = (.error refusal, b) := by
  rw [load, h]

/-- where loadable code is loaded depends on the search for a start alone -/
theorem load_of_loadable (h : b.checkLoadable id code = .ok ()) :
    b.load id process code =
      match b.drawStart code.length b.rules.maxPlacementAttempts b.generator with
      | (.error refusal, generator) => (.error refusal, { b with generator })
      | (.ok start, generator) => (.ok start, { b.place id process code start with generator }) := by
  rw [load, h]
  rfl

end

/-- **Random loadings are loadings at the places drawn.** A code that is not loadable is turned down by both in the same
way, and nothing is drawn. Otherwise let `d n` be the place that the draw after `n` others comes to. If a loading at
`d k` succeeds, and at none of those before it, then the random loading gives `d k` after `k + 1` draws and leaves the
battle that the loading at `d k` leaves, but for the generator. If none of the places that may be tried does, then it
gives up after so many draws and leaves everything else. -/
theorem load_law (b : Battle G) (id : ProgramId) (process : ProcessId) (code : List Cell) :
    (∀ refusal, b.checkLoadable id code = .error refusal →
      (∀ address, b.loadAt id process code address = .error refusal) ∧
        b.load id process code = (.error refusal, b)) ∧
    (b.checkLoadable id code = .ok () → ∀ d : Nat → Nat,
      (∀ n < b.rules.maxPlacementAttempts, Random.draw? b.core.size n b.generator = some (d n)) →
      (∀ k < b.rules.maxPlacementAttempts, ∀ b', b.loadAt id process code (d k) = .ok b' →
        (∀ m < k, ∃ refusal, b.loadAt id process code (d m) = .error refusal) →
        b.load id process code =
          (.ok (d k), { b' with generator := Random.afterDraws b.core.size (k + 1) b.generator })) ∧
      ((∀ m < b.rules.maxPlacementAttempts, ∃ refusal, b.loadAt id process code (d m) = .error refusal) →
        b.load id process code =
          (.error (.noPlacement b.rules.maxPlacementAttempts),
            { b with
              generator := Random.afterDraws b.core.size b.rules.maxPlacementAttempts b.generator }))) := by
  refine ⟨fun refusal h => ⟨loadAt_of_not_loadable h, load_of_not_loadable h⟩, fun hload d hd => ?_⟩
  have hlt : ∀ n < b.rules.maxPlacementAttempts, d n < b.core.size := fun n hn => Random.draw?_lt (hd n hn)
  have hmiss : ∀ n < b.rules.maxPlacementAttempts, (∃ refusal, b.loadAt id process code (d n) = .error refusal) →
      b.Misses code.length b.generator n := by
    intro n hn hrefused
    exact ⟨d n, hd n hn, (loadAt_refused_iff hload (hlt n hn)).1 hrefused⟩
  constructor
  · intro k hk b' hfits hbefore
    obtain ⟨hroom, rfl⟩ := (loadAt_eq_ok_iff hload (hlt k hk)).1 hfits
    have hmisses : ∀ m < k, b.Misses code.length b.generator m := fun m hm => hmiss m (by omega) (hbefore m hm)
    rw [load_of_loadable hload, drawStart_of_room hk hmisses (hd k hk) hroom]
  · intro hall
    rw [load_of_loadable hload, drawStart_of_misses_all fun m hm => hmiss m hm (hall m hm)]

/-- a core of four cells of which the first two are taken, three tries, and draws that go up by one -/
def halfTaken : Battle Random.Counter :=
  { rules := { coreSize := 4, maxPlacementAttempts := 3 }
    core := ⟨#[(Cell.jmp 0).ownedBy 0 0, (Cell.jmp 0).ownedBy 0 0, Cell.empty, Cell.empty]⟩
    generator := ⟨0, 0x4000000000000000⟩
    warriors := [.load 0 (List.replicate 2 ((Cell.jmp 0).ownedBy 0 0)) 0] }

/-- two cells are put behind those taken by the last draw, for three there is no room, and the id 0 is taken -/
theorem load_law_third_draw :
    let two := List.replicate 2 (Cell.jmp 1)
    let three := List.replicate 3 (Cell.jmp 1)
    halfTaken.load 1 0 two =
        (.ok 2, { halfTaken.place 1 0 two 2 with generator := Random.afterDraws 4 3 halfTaken.generator }) ∧
      halfTaken.load 1 0 three =
        (.error (.noPlacement 3), { halfTaken with generator := Random.afterDraws 4 3 halfTaken.generator }) ∧
      halfTaken.load 0 0 two = (.error (.duplicateProgram 0), halfTaken) := by
  intro two three
  have htwo : halfTaken.checkLoadable 1 two = .ok () := rfl
  have hthree : halfTaken.checkLoadable 1 three = .ok () := rfl
  have hdraws : ∀ n < 3, Random.draw? 4 n halfTaken.generator = some n := by decide +kernel
  refine ⟨?_, ?_, ((load_law halfTaken 0 0 two).1 _ rfl).2⟩
  · have hroom : ∀ m < 2, m < 4 ∧ ¬ halfTaken.RoomAt 2 m := by decide
    apply ((load_law halfTaken 1 0 two).2 htwo id hdraws).1 2 (by decide) _ rfl
    exact fun m hm => (loadAt_refused_iff htwo (hroom m hm).1).2 (hroom m hm).2
  · have hroom : ∀ m < 3, m < 4 ∧ ¬ halfTaken.RoomAt 3 m := by decide
    apply ((load_law halfTaken 1 0 three).2 hthree id hdraws).2
    exact fun m hm => (loadAt_refused_iff hthree (hroom m hm).1).2 (hroom m hm).2

end Battle

end CoreWar
