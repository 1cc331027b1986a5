/-
Reordering: the order in which programs are loaded does not matter to the core.

A plan is a loading at an address. When all cells of a program must be free, plans can be carried out one after another
iff each could be carried out alone and no two of them have an id or a place in common. That does not mention the order,
and neither does the core that comes of it: what a plan covers is its stamped code, and all else is as before. Only the
warriors and what is told of them stand in the order of the plans.

- `takes_put_iff`: one plan after another; a stamped cell is never mistaken for a free one.
- `accepts_iff`: any number of plans.
- `Carried`: all that becomes of a battle when plans are carried out; `Carried.core_eq` compares the cores.
- `reordering_law`: plans in two orders.
-/
import CoreWar.Proofs.Refusals
import CoreWar.Roster
import CoreWar.Random.Counter

namespace CoreWar

/-! ## Plans -/

/-- a program to be loaded at an address -/
structure Plan where
  id : ProgramId
  process : ProcessId
  code : List Cell
  address : Int
deriving DecidableEq, Repr

namespace Plan

def request (p : Plan) : Request := .loadAt p.id p.process p.code p.address

/-- the code as it is written to the core -/
def stamped (p : Plan) : List Cell := p.code.map (Cell.ownedBy p.id p.process)

/-- where the code starts in a core of this size -/
def start (size : Nat) (p : Plan) : Nat := (p.address % size).toNat

/-- the warrior that is loaded into a core of this size -/
def warrior (size : Nat) (p : Plan) : Warrior := .load p.id p.stamped (Int64.ofNat (p.start size))

/-- what is told of the loading -/
def event (size : Nat) (p : Plan) : Event := .loaded p.id (p.start size) p.stamped.length

/-- one of the program's cells has the same place as `a` -/
def Covers (size : Nat) (p : Plan) (a : Int) : Prop := ∃ i < p.code.length, (p.address + i) % size = a % size

instance (size : Nat) (p : Plan) (a : Int) : Decidable (p.Covers size a) :=
  inferInstanceAs (Decidable (∃ i < p.code.length, (p.address + i) % size = a % size))

/-- the programs differ and have no place in common -/
structure Apart (size : Nat) (p q : Plan) : Prop where
  ids : p.id ≠ q.id
  places : ∀ a, p.Covers size a → ¬ q.Covers size a

theorem Apart.symm {size : Nat} {p q : Plan} (h : p.Apart size q) : q.Apart size p :=
  ⟨h.ids.symm, fun a hq hp => h.places a hp hq⟩

@[simp] theorem length_stamped (p : Plan) : p.stamped.length = p.code.length := List.length_map _

end Plan

namespace Battle

variable {G : Type} {b : Battle G} {p q : Plan} {plans plans' : List Plan}

/-- carries out a plan, whether or not there is room -/
def put (b : Battle G) (p : Plan) : Battle G := b.place p.id p.process p.code (b.core.index p.address)

@[simp] theorem size_put (b : Battle G) (p : Plan) : (b.put p).core.size = b.core.size := Core.size_writeFrom ..

/-- the program could be loaded, and all cells for it are free -/
structure Takes (b : Battle G) (p : Plan) : Prop where
  loadable : b.Loadable p.id p.code
  free : ∀ a, p.Covers b.core.size a → b.core.isOccupied a = false

theorem Takes.length_le (h : b.Takes p) : p.stamped.length ≤ b.core.size := by
  rw [p.length_stamped]
  exact h.loadable.2.1

/-! ## One plan -/

theorem Loadable.size_pos (h : b.Loadable p.id p.code) : 0 < b.core.size :=
  size_pos_of_checkLoadable (loadable_iff.2 h)

/-- the row that is searched for a plan are the cells that it covers -/
theorem roomAt_index_iff (hwrap : b.rules.placement = .wrapping) (hpos : 0 < b.core.size) :
    b.RoomAt p.code.length (b.core.index p.address) ↔
      ∀ a, p.Covers b.core.size a → b.core.isOccupied a = false := by
  have hplace (i : Nat) :
      ((b.core.index p.address + i : Nat) : Int) % b.core.size = (p.address + i) % b.core.size := by
    rw [Int.natCast_add, b.core.natCast_index hpos, Int.emod_add_emod]
  have hblocks (i : Nat) :
      b.Blocks (b.core.index p.address) i ↔ b.core.isOccupied (b.core.index p.address + i : Nat) = true := by
    simp only [Blocks, hwrap, Placement.checks, true_and]
  rw [roomAt_iff]
  constructor
  · rintro hroom a ⟨i, hi, ha⟩
    have hfree := mt (hblocks i).2 (hroom i hi)
    rwa [Bool.not_eq_true, Core.isOccupied, Core.read_congr ((hplace i).trans ha)] at hfree
  · intro hfree i hi hclaimed
    have hclaimed := (hblocks i).1 hclaimed
    rw [hfree _ ⟨i, hi, (hplace i).symm⟩] at hclaimed
    cases hclaimed

theorem loadAt_of_takes (hwrap : b.rules.placement = .wrapping) (h : b.Takes p) :
    b.loadAt p.id p.process p.code p.address = .ok (b.put p) := by
  have hroom := (roomAt_index_iff hwrap h.loadable.size_pos).2 h.free
  unfold RoomAt at hroom
  rw [loadAt, loadable_iff.2 h.loadable]
  simp only [bind, Except.bind, hroom]
  rfl

/-- a plan is carried out iff the battle takes it -/
theorem takes_iff [WordSource G] (hwrap : b.rules.placement = .wrapping) :
    (b.perform p.request).1 = .done ↔ b.Takes p := by
  constructor
  · intro hdone
    rcases loadAt_cases b p.id p.process p.code p.address with ⟨refusal, h⟩ | ⟨hload, hroom, -, -⟩
    · rw [Plan.request, perform_of_loadAt_error h] at hdone
      cases hdone
    · have hloadable := loadable_iff.1 hload
      exact ⟨hloadable, (roomAt_index_iff hwrap hloadable.size_pos).1 hroom⟩
  · intro h
    simp only [Plan.request, perform, loadAt_of_takes hwrap h]

theorem perform_of_takes [WordSource G] (hwrap : b.rules.placement = .wrapping) (h : b.Takes p) :
    (b.perform p.request).2 = b.put p := by
  simp only [Plan.request, perform, loadAt_of_takes hwrap h]

/-! ## What a plan writes -/

theorem read_put_of_covered (h : b.Takes p) {i : Nat} {c : Cell} (hc : p.stamped[i]? = some c) :
    (b.put p).core.read (p.address + i) = c := by
  have hplace : (p.address + i) % (b.put p).core.size = (b.core.index p.address + i : Int) % (b.put p).core.size := by
    rw [size_put, b.core.natCast_index h.loadable.size_pos, Int.emod_add_emod]
  rw [Core.read_congr hplace]
  exact b.core.read_writeFrom_of_lt _ h.length_le hc

theorem read_put_of_not_covered (h : b.Takes p) {a : Int} (ha : ¬ p.Covers b.core.size a) :
    (b.put p).core.read a = b.core.read a := by
  have hpos := h.loadable.size_pos
  have hout : p.stamped.length ≤ b.core.index (a - b.core.index p.address) := by
    rw [p.length_stamped]
    refine Nat.le_of_not_lt fun hlt => ha ⟨_, hlt, ?_⟩
    rw [b.core.natCast_index hpos, b.core.natCast_index hpos, Int.add_emod_emod, ← Int.emod_add_emod]
    congr 1
    omega
  refine (b.core.read_writeFrom _ h.length_le a).trans ?_
  rw [List.getElem?_eq_none hout, Option.getD_none]

/-- a plan claims what it covers, and nothing else -/
theorem isOccupied_put (h : b.Takes p) (a : Int) :
    (b.put p).core.isOccupied a = false ↔ ¬ p.Covers b.core.size a ∧ b.core.isOccupied a = false := by
  by_cases ha : p.Covers b.core.size a
  · obtain ⟨i, hi, hplace⟩ := ha
    have hc : p.stamped[i]? = some (p.code[i].ownedBy p.id p.process) := by simp [Plan.stamped, hi]
    have hclaimed : (b.put p).core.isOccupied a = true := by
      rw [Core.isOccupied, Core.read_congr (b := p.address + i) (by rw [size_put, hplace]), read_put_of_covered h hc,
        Cell.isEmpty_ownedBy, Bool.not_false]
    simp only [hclaimed, Bool.true_eq_false, false_iff, not_and]
    intro hfree
    exact absurd ⟨i, hi, hplace⟩ hfree
  · rw [Core.isOccupied, read_put_of_not_covered h ha, ← Core.isOccupied]
    exact (and_iff_right ha).symm

theorem loadable_put_iff : (b.put p).Loadable q.id q.code ↔ b.Loadable q.id q.code ∧ p.id ≠ q.id := by
  have hwarriors : (b.put p).warriors = b.warriors ++ [p.warrior b.core.size] := rfl
  have hids : (∀ w ∈ (b.put p).warriors, w.id ≠ q.id) ↔ (∀ w ∈ b.warriors, w.id ≠ q.id) ∧ p.id ≠ q.id := by
    rw [hwarriors, List.forall_mem_append]
    exact and_congr_right' (List.forall_mem_singleton (p := fun w : Warrior => w.id ≠ q.id))
  rw [Loadable, Loadable, size_put, hids, and_assoc, and_assoc]

/-- behind a plan another one can be carried out iff it could be before, and the two are apart -/
theorem takes_put_iff (h : b.Takes p) : (b.put p).Takes q ↔ b.Takes q ∧ p.Apart b.core.size q := by
  constructor
  · intro hq
    obtain ⟨hloadable, hids⟩ := loadable_put_iff.1 hq.loadable
    have hfree (a : Int) (ha : q.Covers b.core.size a) := (isOccupied_put h a).1 (hq.free a (by rwa [size_put]))
    exact ⟨⟨hloadable, fun a ha => (hfree a ha).2⟩, hids, fun a hp ha => (hfree a ha).1 hp⟩
  · rintro ⟨hq, hids, hplaces⟩
    refine ⟨loadable_put_iff.2 ⟨hq.loadable, hids⟩, fun a ha => ?_⟩
    rw [size_put] at ha
    exact (isOccupied_put h a).2 ⟨fun hp => hplaces a hp ha, hq.free a ha⟩

/-! ## Plans one after the other -/

section

variable [WordSource G]

/-- all plans are carried out, in this order -/
def Accepts (b : Battle G) (plans : List Plan) : Prop :=
  ∀ reply ∈ (b.replay (plans.map Plan.request)).1, reply = .done

instance (b : Battle G) (plans : List Plan) : Decidable (b.Accepts plans) :=
  inferInstanceAs (Decidable (∀ reply ∈ (b.replay (plans.map Plan.request)).1, reply = .done))

theorem accepts_cons (hwrap : b.rules.placement = .wrapping) :
    b.Accepts (p :: plans) ↔ b.Takes p ∧ (b.put p).Accepts plans := by
  have hreplies : b.Accepts (p :: plans) ↔
      (b.perform p.request).1 = .done ∧ (b.perform p.request).2.Accepts plans := List.forall_mem_cons
  rw [hreplies, takes_iff hwrap]
  refine and_congr_right fun h => ?_
  rw [perform_of_takes hwrap h]

/-- **Plans that are accepted.** When all cells of a program must be free, plans are carried out in a given order iff
the battle would take each of them, and any two of them are apart. -/
theorem accepts_iff (hwrap : b.rules.placement = .wrapping) :
    b.Accepts plans ↔ (∀ p ∈ plans, b.Takes p) ∧ plans.Pairwise (Plan.Apart b.core.size) := by
  induction plans generalizing b with
  | nil => simp [Accepts, replay]
  | cons p plans ih =>
    rw [accepts_cons hwrap, List.forall_mem_cons, List.pairwise_cons, and_assoc]
    refine and_congr_right fun h => ?_
    have hput (q : Plan) := takes_put_iff (q := q) h
    rw [ih (b := b.put p) hwrap, size_put]
    constructor
    · rintro ⟨htakes, hapart⟩
      exact ⟨fun q hq => ((hput q).1 (htakes q hq)).1, fun q hq => ((hput q).1 (htakes q hq)).2, hapart⟩
    · rintro ⟨htakes, hfirst, hapart⟩
      exact ⟨fun q hq => (hput q).2 ⟨htakes q hq, hfirst q hq⟩, hapart⟩

theorem accepts_perm (hwrap : b.rules.placement = .wrapping) (hperm : plans.Perm plans') (h : b.Accepts plans) :
    b.Accepts plans' := by
  obtain ⟨htakes, hapart⟩ := (accepts_iff hwrap).1 h
  exact (accepts_iff hwrap).2
    ⟨fun p hp => htakes p (hperm.mem_iff.2 hp), hapart.perm hperm fun hpq => hpq.symm⟩

end

/-- the battle `c` is `b` after the plans: the core holds them and is otherwise as it was, and there is a warrior and an
event for each -/
structure Carried (b c : Battle G) (plans : List Plan) : Prop where
  size_eq : c.core.size = b.core.size
  covered : ∀ p ∈ plans, ∀ (i : Nat) (cell : Cell), p.stamped[i]? = some cell → c.core.read (p.address + i) = cell
  uncovered : ∀ a, (∀ p ∈ plans, ¬ p.Covers b.core.size a) → c.core.read a = b.core.read a
  warriors : c.warriors = b.warriors ++ plans.map (Plan.warrior b.core.size)
  log : c.log = b.log ++ (plans.map (Plan.event b.core.size)).toArray
  others : c = { b with core := c.core, warriors := c.warriors, log := c.log }

theorem Carried.nil (b : Battle G) : Carried b b [] :=
  ⟨rfl, fun _ hp => absurd hp List.not_mem_nil, fun _ _ => rfl, (List.append_nil _).symm, Array.append_empty.symm, rfl⟩

theorem Carried.cons {c : Battle G} (htakes : b.Takes p) (hapart : ∀ q ∈ plans, p.Apart b.core.size q)
    (h : Carried (b.put p) c plans) : Carried b c (p :: plans) where
  size_eq := h.size_eq.trans (size_put b p)
  covered := by
    intro q hq i cell hcell
    rcases List.mem_cons.1 hq with rfl | hq
    · -- the plans behind do not come to what this one has written
      have hi : i < q.code.length := q.length_stamped ▸ (List.getElem?_eq_some_iff.1 hcell).1
      rw [h.uncovered _ fun r hr hcovers => ?_, read_put_of_covered htakes hcell]
      rw [size_put] at hcovers
      exact (hapart r hr).places _ ⟨i, hi, rfl⟩ hcovers
    · exact h.covered q hq i cell hcell
  uncovered := by
    intro a ha
    obtain ⟨hfirst, hrest⟩ := List.forall_mem_cons.1 ha
    rw [h.uncovered a (by simpa using hrest), read_put_of_not_covered htakes hfirst]
  warriors := by
    rw [h.warriors, size_put, List.map_cons, ← List.singleton_append, ← List.append_assoc]
    rfl
  log := by
    have hfirst : (b.put p).log = b.log.push (p.event b.core.size) := rfl
    rw [h.log, size_put, hfirst]
    simp
  others := h.others

theorem carried_of_accepts [WordSource G] (hwrap : b.rules.placement = .wrapping) (h : b.Accepts plans) :
    Carried b (b.after (plans.map Plan.request)) plans := by
  induction plans generalizing b with
  | nil => exact .nil b
  | cons p plans ih =>
    obtain ⟨htakes, hrest⟩ := (accepts_cons hwrap).1 h
    obtain ⟨hapart, -⟩ := List.pairwise_cons.1 ((accepts_iff hwrap).1 h).2
    rw [List.map_cons, after_cons, perform_of_takes hwrap htakes]
    exact .cons htakes hapart (ih hwrap hrest)

/-- the core does not tell in which order the plans were carried out -/
theorem Carried.core_eq {c c' : Battle G} (h : Carried b c plans) (h' : Carried b c' plans')
    (hperm : plans.Perm plans') : c'.core = c.core := by
  have hsize : c'.core.size = c.core.size := h'.size_eq.trans h.size_eq.symm
  refine Core.ext_read hsize fun a => ?_
  by_cases ha : ∃ p ∈ plans, p.Covers b.core.size a
  · obtain ⟨p, hp, i, hi, hplace⟩ := ha
    have hcell : p.stamped[i]? = some (p.code[i].ownedBy p.id p.process) := by simp [Plan.stamped, hi]
    have hread := h.covered p hp i _ hcell
    have hread' := h'.covered p (hperm.mem_iff.1 hp) i _ hcell
    rw [← Core.read_congr (a := p.address + i) (b := a) (by rw [h'.size_eq, hplace]), hread', ← hread,
      Core.read_congr (a := p.address + i) (b := a) (by rw [h.size_eq, hplace])]
  · have hnone (p : Plan) (hp : p ∈ plans) : ¬ p.Covers b.core.size a := fun hcovers => ha ⟨p, hp, hcovers⟩
    rw [h'.uncovered a fun p hp => hnone p (hperm.mem_iff.2 hp), h.uncovered a hnone]

/-- **Reordering.** When all cells of a program must be free, plans that are carried out in one order are carried out in
every other, whatever battle it is; the core comes out the same, the warriors are those of the plans in the order of the
plans, as is what is told of them, and all else is the same. -/
theorem reordering_law [WordSource G] {b : Battle G} (hwrap : b.rules.placement = .wrapping) {plans plans' : List Plan}
    (hperm : plans.Perm plans') (hdone : ∀ reply ∈ (b.replay (plans.map Plan.request)).1, reply = .done) :
    let c := b.after (plans.map Plan.request)
    let c' := b.after (plans'.map Plan.request)
    (∀ reply ∈ (b.replay (plans'.map Plan.request)).1, reply = .done) ∧ c'.core = c.core ∧
      (c.warriors = b.warriors ++ plans.map (Plan.warrior b.core.size) ∧
        c'.warriors = b.warriors ++ plans'.map (Plan.warrior b.core.size)) ∧
      (c.log = b.log ++ (plans.map (Plan.event b.core.size)).toArray ∧
        c'.log = b.log ++ (plans'.map (Plan.event b.core.size)).toArray) ∧
      c' = { c with warriors := c'.warriors, log := c'.log } := by
  intro c c'
  have hdone' : b.Accepts plans' := accepts_perm hwrap hperm hdone
  have h : Carried b c plans := carried_of_accepts hwrap hdone
  have h' : Carried b c' plans' := carried_of_accepts hwrap hdone'
  have hcore : c'.core = c.core := h.core_eq h' hperm
  refine ⟨hdone', hcore, ⟨h.warriors, h'.warriors⟩, ⟨h.log, h'.log⟩, ?_⟩
  have hothers := h.others
  generalize c = d at hothers hcore
  rw [hothers, h'.others, hcore]

/-- an imp has made its first copy in a core of nine cells, on the places 3 and 4 -/
def impAtFour : Battle Random.Counter :=
  Battle.after { rules := { coreSize := 9 }, core := .blank 9, generator := ⟨0, 1⟩ }
    [.loadAt 7 0 Roster.imp 3, .start, .step]

/-- three programs, one of them round the end of the core, are loaded in another order -/
theorem reordering_law_round :
    let round : Plan := ⟨0, 5, [Cell.empty, Cell.jmp 0, Cell.data], -2⟩
    let jump : Plan := ⟨1, 5, [Cell.jmp 0], 19⟩
    let bombs : Plan := ⟨2, 6, [Cell.data, Cell.data], 5⟩
    let c := impAtFour.after ([round, jump, bombs].map Plan.request)
    let c' := impAtFour.after ([bombs, round, jump].map Plan.request)
    impAtFour.rules.placement = .wrapping ∧ (impAtFour.replay ([round, jump, bombs].map Plan.request)).1 =
        [.done, .done, .done] ∧
      (∀ reply ∈ (impAtFour.replay ([bombs, round, jump].map Plan.request)).1, reply = .done) ∧ c'.core = c.core ∧
      c.warriors.map (fun w => (w.id, w.processes)) = [(7, [4]), (0, [7]), (1, [1]), (2, [5])] ∧
      c'.warriors.map (fun w => (w.id, w.processes)) = [(7, [4]), (2, [5]), (0, [7]), (1, [1])] := by
  intro round jump bombs c c'
  have hwrap : impAtFour.rules.placement = .wrapping := rfl
  have hperm : [round, jump, bombs].Perm [bombs, round, jump] := by decide
  have hreplies : (impAtFour.replay ([round, jump, bombs].map Plan.request)).1 = [.done, .done, .done] := by
    decide +kernel
  have hdone : ∀ reply ∈ (impAtFour.replay ([round, jump, bombs].map Plan.request)).1, reply = .done := by
    rw [hreplies]
    decide
  obtain ⟨hdone', hcore, ⟨hwarriors, hwarriors'⟩, -, -⟩ := reordering_law hwrap hperm hdone
  refine ⟨hwrap, hreplies, hdone', hcore, ?_, ?_⟩
  · rw [hwarriors]
    decide +kernel
  · rw [hwarriors']
    decide +kernel

/-- where a program need not find its cells free round the end of the core, it must not be the first -/
example :
    let round : Plan := ⟨0, 0, [Cell.jmp 0, Cell.data], 1⟩
    let jump : Plan := ⟨1, 0, [Cell.jmp 0], 0⟩
    let b : Battle Random.Counter :=
      { rules := { coreSize := 2, placement := .unwrapped }, core := .blank 2, generator := ⟨0, 1⟩ }
    b.Accepts [jump, round] ∧ ¬ b.Accepts [round, jump] := by
  decide +kernel

end Battle

end CoreWar
