/-
The dwarf: it never bombs itself where four divides the size of the core.

The dwarf adds four to the distance in its bomb, copies the bomb that far, and jumps back to do it again. So whatever it
writes goes to its bomb, or to a cell that is a multiple of four away from it. Where four divides the size of the core,
its three instructions are none of these cells, however often it has gone round. The distance is a word and wraps around
in the end. Then the bombs come down in another order, but four divides the number of words too; and by then the dwarf
has gone round the core so often that there is a bomb on every cell that it can hit.

- `Dwarf.Site`: what its place has to be like.
- `Dwarf.Bombing`: the core after so many additions and so many copies; `Bombing.arm`, `Bombing.drop`: one more.
- `effect_add`, `effect_mov`, `effect_jmp`: the three instructions, on such a core.
- `Dwarf.Works`: the dwarf among bystanders, after so many turns of its own; `Works.step`, `Works.after`: kept by every
  step, and as long as nobody is loaded.
- `dwarf_law`: the dwarf among bystanders, after the opening.
-/
import CoreWar.Proofs.Budgets
import CoreWar.Proofs.Bystanders
import CoreWar.Proofs.Circle
import CoreWar.Proofs.Residues
import CoreWar.Roster

namespace CoreWar

namespace Dwarf

/-- the bomb, stamped, with the distance at which it was, or will be, dropped -/
def bomb (owner : Owner) (distance : Int64) : Cell :=
  { op := .dat, a := ⟨0, some .immediate⟩, b := ⟨distance, some .immediate⟩, owner := some owner }

/-- `ADD #4, $3`, stamped -/
def add (owner : Owner) : Cell :=
  { op := .add, a := ⟨4, some .immediate⟩, b := ⟨3, some .direct⟩, owner := some owner }

/-- `MOV $2, @2`, stamped -/
def mov (owner : Owner) : Cell :=
  { op := .mov, a := ⟨2, some .direct⟩, b := ⟨2, some .bIndirect⟩, owner := some owner }

/-- `JMP $-2`, stamped -/
def jmp (owner : Owner) : Cell := { op := .jmp, a := ⟨-2, some .direct⟩, owner := some owner }

/-- the dwarf's code, stamped -/
def code (owner : Owner) : List Cell := [add owner, mov owner, jmp owner, bomb owner 0]

/-- the dwarf, with its process at the pointer -/
def warrior (owner : Owner) (pointer : Int64) : Warrior := .load owner.program (code owner) pointer

/-- where the MOV drops the bomb after so many additions -/
def target (start armed : Nat) : Int64 := Int64.ofNat (start + 3 + 4 * armed)

/-! ## The core -/

/-- the dwarf stands at its start, in a core where it is safe from itself -/
structure Site (owner : Owner) (start : Nat) (core : Core) : Prop where
  four_dvd : 4 ∣ core.size
  size_lt : core.size < 2 ^ 61
  start_lt : start < core.size
  code : ∀ (i : Nat) (c : Cell), (code owner)[i]? = some c → core.read (start + i) = c

/-- what the dwarf has made of the core: the distance in the bomb was increased `armed` times, the bomb was dropped
`dropped` times, and nothing else was written -/
structure Bombing (origin : Core) (owner : Owner) (start armed dropped : Nat) (core : Core) : Prop where
  size_eq : core.size = origin.size
  kept : ∀ x : Int, (x - start) % 4 ≠ 3 → core.read x = origin.read x
  armed : core.read (start + 3) = bomb owner (Int64.ofNat (4 * armed))
  bombed : ∀ i : Nat, 1 ≤ i → i ≤ dropped → ∃ distance, core.read (start + 3 + 4 * i) = bomb owner distance

/-- wrapping around does not take the target to another residue -/
theorem target_sub_emod (start armed : Nat) : ((target start armed).toInt - start) % 4 = 3 := by
  have hresidue : (target start armed).toInt % (4 : Nat) = ((start + 3 + 4 * armed : Nat) : Int) % (4 : Nat) :=
    residue_ofNat_of_dvd (by decide) (start + 3 + 4 * armed)
  omega

section

variable {origin core : Core} {owner : Owner} {start armed dropped : Nat} (hsite : Site owner start origin)
include hsite

theorem Site.pos : 0 < origin.size := Nat.zero_lt_of_lt hsite.start_lt

/-- as words, the places of the dwarf's cells do not wrap around -/
theorem Site.toInt_ofNat {i : Nat} (hi : i ≤ 3) : (Int64.ofNat (start + i)).toInt = start + i := by
  have hsize := hsite.size_lt
  have hstart := hsite.start_lt
  rw [Int64.toInt_ofNat_of_lt (by omega), Int.natCast_add]

theorem Site.bombing : Bombing origin owner start 0 0 origin := by
  refine ⟨rfl, fun _ _ => rfl, hsite.code 3 _ rfl, ?_⟩
  intro i hfirst hlast
  omega

variable (h : Bombing origin owner start armed dropped core)
include h

theorem Bombing.pos : 0 < core.size := by
  rw [h.size_eq]
  exact hsite.pos

/-- addresses of the same cell agree modulo four -/
theorem Bombing.emod_eq {x y : Int} (hxy : core.index x = core.index y) : (x - start) % 4 = (y - start) % 4 := by
  have hdvd : (4 : Int) ∣ (core.size : Int) := by
    rw [h.size_eq]
    exact Int.natCast_dvd_natCast.2 hsite.four_dvd
  have hround := (core.index_eq_index_iff (h.pos hsite)).1 hxy
  have hfour : x % 4 = y % 4 := by
    calc x % 4 = x % core.size % 4 := (Int.emod_emod_of_dvd x hdvd).symm
      _ = y % core.size % 4 := by rw [hround]
      _ = y % 4 := Int.emod_emod_of_dvd y hdvd
  omega

/-- the instructions are never written over -/
theorem Bombing.read_code {i : Nat} {c : Cell} (hi : i < 3) (hc : (code owner)[i]? = some c) :
    core.read (Int64.ofNat (start + i)).toInt = c := by
  have hoffset : ((start + i : Int) - start) % 4 ≠ 3 := by omega
  rw [hsite.toInt_ofNat (by omega), h.kept _ hoffset, hsite.code i c hc]

theorem Bombing.read_bomb : core.read (Int64.ofNat (start + 3)).toInt = bomb owner (Int64.ofNat (4 * armed)) := by
  rw [hsite.toInt_ofNat (Nat.le_refl 3)]
  exact h.armed

/-- writing a bomb where bombs go leaves the instructions, and the bombs that were dropped -/
theorem Bombing.write {x : Int} {distance : Int64} (hx : (x - start) % 4 = 3) {armed' : Nat}
    (hbomb : (core.write x (bomb owner distance)).read (start + 3) = bomb owner (Int64.ofNat (4 * armed'))) :
    Bombing origin owner start armed' dropped (core.write x (bomb owner distance)) := by
  refine ⟨?_, ?_, hbomb, ?_⟩
  · rw [Core.size_write, h.size_eq]
  · intro y hy
    have hother : core.index x ≠ core.index y := by
      intro hxy
      have hmod := h.emod_eq hsite hxy
      omega
    rw [core.read_write (h.pos hsite), if_neg hother, h.kept y hy]
  · intro i hfirst hlast
    rw [core.read_write (h.pos hsite)]
    split
    · exact ⟨distance, rfl⟩
    · exact h.bombed i hfirst hlast

/-- one more addition -/
theorem Bombing.arm : Bombing origin owner start (armed + 1) dropped
    (core.write (Int64.ofNat (start + 3)).toInt (bomb owner (Int64.ofNat (4 * (armed + 1))))) := by
  have hplace : (Int64.ofNat (start + 3)).toInt = start + 3 := hsite.toInt_ofNat (Nat.le_refl 3)
  apply h.write hsite (by omega)
  rw [core.read_write (h.pos hsite), hplace, if_pos rfl]

omit h in
/-- one more copy: there is a bomb at its distance, even if it went elsewhere -/
theorem Bombing.drop (h : Bombing origin owner start (dropped + 1) dropped core) :
    Bombing origin owner start (dropped + 1) (dropped + 1)
      (core.write (target start (dropped + 1)).toInt (bomb owner (Int64.ofNat (4 * (dropped + 1))))) := by
  have hbomb : Bombing origin owner start (dropped + 1) dropped
      (core.write (target start (dropped + 1)).toInt (bomb owner (Int64.ofNat (4 * (dropped + 1))))) := by
    apply h.write hsite (target_sub_emod start (dropped + 1))
    rw [core.read_write (h.pos hsite)]
    split
    · rfl
    · exact h.armed
  refine ⟨hbomb.size_eq, hbomb.kept, hbomb.armed, ?_⟩
  intro i hfirst hlast
  rcases Nat.lt_or_ge i (dropped + 1) with hbefore | hnow
  · exact hbomb.bombed i hfirst (Nat.le_of_lt_succ hbefore)
  · obtain rfl : i = dropped + 1 := Nat.le_antisymm hlast hnow
    by_cases hfits : start + 3 + 4 * (dropped + 1) < 2 ^ 63
    · have htarget : (target start (dropped + 1)).toInt = start + 3 + 4 * (dropped + 1 : Nat) := by
        rw [target, Int64.toInt_ofNat_of_lt hfits]
        omega
      refine ⟨Int64.ofNat (4 * (dropped + 1)), ?_⟩
      rw [core.read_write (h.pos hsite), htarget, if_pos rfl]
    · -- the target wraps around, but one round of the core earlier a bomb was dropped there
      obtain ⟨quarter, hquarter⟩ := hsite.four_dvd
      have hsize := hsite.size_lt
      have hstart := hsite.start_lt
      obtain ⟨distance, hread⟩ := hbomb.bombed (dropped + 1 - quarter) (by omega) (by omega)
      have hround : (start + 3 + 4 * (dropped + 1 : Nat) : Int) =
          start + 3 + 4 * (dropped + 1 - quarter : Nat) + (4 * quarter : Nat) := by omega
      refine ⟨distance, ?_⟩
      rw [← hread]
      apply Core.read_congr
      rw [hbomb.size_eq, hquarter, hround, Int.add_emod_right]

/-! ## The three instructions -/

variable {rules : Rules} {w : Warrior} (hid : w.id = owner.program)
include hid

/-- the ADD adds four to the distance in the bomb -/
theorem Bombing.effect_add : core.effect rules w (Int64.ofNat (start + 0)) =
    .ok (.store (Int64.ofNat (start + 3)) (bomb owner (Int64.ofNat (4 * (armed + 1))))) := by
  have hcell : core.read (Int64.ofNat (start + 0)).toInt = add owner := h.read_code hsite (by decide) rfl
  have howner : (add owner).ownerProgram = some w.id := congrArg some hid.symm
  have hsource : core.resolve (Int64.ofNat (start + 0)) (add owner) .a = .ok ⟨Int64.ofNat (start + 0), some 4⟩ := rfl
  have htarget : core.resolve (Int64.ofNat (start + 0)) (add owner) .b = .ok ⟨Int64.ofNat (start + 3), none⟩ := by
    rw [Int64.ofNat_add start 3]
    rfl
  rw [← hcell] at howner hsource htarget
  have hexec : Core.Execution core rules w (Int64.ofNat (start + 0)) _ _ :=
    .add howner (congrArg Cell.op hcell) hsource htarget
  have hsum : 4 + Int64.ofNat (4 * armed) = Int64.ofNat (4 * (armed + 1)) := by
    rw [Nat.mul_succ, Nat.add_comm]
    exact (Int64.ofNat_add 4 (4 * armed)).symm
  rw [hexec.effect_eq, h.read_bomb hsite, ← hsum]
  simp only [Core.targetFields, h.read_bomb hsite]
  rfl

/-- the MOV copies the bomb to its distance -/
theorem Bombing.effect_mov : core.effect rules w (Int64.ofNat (start + 1)) =
    .ok (.store (target start armed) (bomb owner (Int64.ofNat (4 * armed)))) := by
  have hcell : core.read (Int64.ofNat (start + 1)).toInt = mov owner := h.read_code hsite (by decide) rfl
  have hplace : Int64.ofNat (start + 1) + 2 = Int64.ofNat (start + 3) := (Int64.ofNat_add (start + 1) 2).symm
  have howner : (mov owner).ownerProgram = some w.id := congrArg some hid.symm
  have hsource : core.resolve (Int64.ofNat (start + 1)) (mov owner) .a = .ok ⟨Int64.ofNat (start + 3), none⟩ := by
    rw [← hplace]
    rfl
  have hpointer : core.resolve (Int64.ofNat (start + 1)) (mov owner) .b =
      .ok ⟨Int64.ofNat (start + 1) + 2 + (core.read (Int64.ofNat (start + 1) + 2).toInt).b.field, none⟩ := rfl
  have htarget : core.resolve (Int64.ofNat (start + 1)) (mov owner) .b = .ok ⟨target start armed, none⟩ := by
    rw [hpointer, hplace, h.read_bomb hsite, target, Int64.ofNat_add (start + 3)]
    rfl
  rw [← hcell] at howner hsource htarget
  have hexec : Core.Execution core rules w (Int64.ofNat (start + 1)) _ _ :=
    .mov howner (congrArg Cell.op hcell) hsource htarget
  rw [hexec.effect_eq, h.read_bomb hsite]

/-- the JMP goes back to the ADD -/
theorem Bombing.effect_jmp : core.effect rules w (Int64.ofNat (start + 2)) = .ok (.jump (Int64.ofNat (start + 0))) := by
  have hcell : core.read (Int64.ofNat (start + 2)).toInt = jmp owner := h.read_code hsite (by decide) rfl
  have howner : (jmp owner).ownerProgram = some w.id := congrArg some hid.symm
  rw [← hcell] at howner
  have hexec : Core.Execution core rules w (Int64.ofNat (start + 2)) _ _ := .jmp howner (congrArg Cell.op hcell)
  have hback : Int64.ofNat (start + 2) + -2 = Int64.ofNat (start + 0) := by
    rw [Int64.ofNat_add, Int64.add_assoc]
    exact Int64.add_zero (Int64.ofNat start)
  rw [hexec.effect_eq, hcell, ← hback]
  rfl

end

/-! ## One turn -/

/-- the dwarf among bystanders, after so many turns of its own: each pass of its loop begins with an addition, and its
second turn is the copy -/
structure Works {G : Type} (origin : Core) (owner : Owner) (place start made : Nat) (b : Battle G) : Prop where
  standing : b.Standing
  writer : b.SoleWriter owner.program
  stands : b.warriors[place]? = some (warrior owner (Int64.ofNat (start + made % 3)))
  bombing : Bombing origin owner start ((made + 2) / 3) ((made + 1) / 3) b.core

variable {G : Type} {origin : Core} {owner : Owner} {place start made : Nat} {b : Battle G}

/-- the dwarf's own turn, by the place of the instruction in the loop -/
theorem Works.executed (hsite : Site owner start origin) (h : Works origin owner place start made b) :
    b.executed (warrior owner (Int64.ofNat (start + made % 3))) =
        warrior owner (Int64.ofNat (start + (made + 1) % 3)) ∧
      Bombing origin owner start ((made + 1 + 2) / 3) ((made + 1 + 1) / 3)
        (b.coreAfter (warrior owner (Int64.ofNat (start + made % 3)))) := by
  have hbombing := h.bombing
  obtain hadd | hmov | hjmp : made % 3 = 0 ∨ made % 3 = 1 ∨ made % 3 = 2 := by omega
  · have hnext : (made + 1) % 3 = 1 := by omega
    have harmed : (made + 1 + 2) / 3 = (made + 2) / 3 + 1 := by omega
    have hdropped : (made + 1 + 1) / 3 = (made + 1) / 3 := by omega
    have heffect : b.core.effect b.rules (warrior owner (Int64.ofNat (start + 0))).next.2
        (warrior owner (Int64.ofNat (start + 0))).next.1 = _ := hbombing.effect_add hsite rfl
    rw [hadd, hnext, hdropped, harmed, Battle.executed, Battle.coreAfter, heffect, Int64.ofNat_add start 1]
    exact ⟨rfl, hbombing.arm hsite⟩
  · have hnext : (made + 1) % 3 = 2 := by omega
    have harmed : (made + 1 + 2) / 3 = (made + 1) / 3 + 1 := by omega
    have hdropped : (made + 1 + 1) / 3 = (made + 1) / 3 + 1 := by omega
    rw [hdropped] at hbombing
    have heffect : b.core.effect b.rules (warrior owner (Int64.ofNat (start + 1))).next.2
        (warrior owner (Int64.ofNat (start + 1))).next.1 = _ := hbombing.effect_mov hsite rfl
    rw [hmov, hnext, harmed, hdropped, Battle.executed, Battle.coreAfter, heffect, Int64.ofNat_add (start + 1) 1]
    exact ⟨rfl, hbombing.drop hsite⟩
  · have hnext : (made + 1) % 3 = 0 := by omega
    have harmed : (made + 1 + 2) / 3 = (made + 2) / 3 := by omega
    have hdropped : (made + 1 + 1) / 3 = (made + 1) / 3 := by omega
    have heffect : b.core.effect b.rules (warrior owner (Int64.ofNat (start + 2))).next.2
        (warrior owner (Int64.ofNat (start + 2))).next.1 = _ := hbombing.effect_jmp hsite rfl
    rw [hjmp, hnext, hdropped, harmed, Battle.executed, Battle.coreAfter, heffect]
    exact ⟨rfl, hbombing⟩

/-- bookkeeping and openings do not concern the dwarf -/
theorem Works.move {b' : Battle G} (h : Works origin owner place start made b) (hmove : Battle.Move b b')
    (hwarriors : b'.warriors = b.warriors) (hcore : b'.core = b.core) : Works origin owner place start made b' := by
  refine ⟨Battle.move_standing hmove h.standing, h.writer.move hmove hwarriors, ?_, ?_⟩
  · rw [hwarriors]
    exact h.stands
  · rw [hcore]
    exact h.bombing

/-- **The dwarf at work.** A step is a turn of the dwarf's, a turn that does not concern it, or no turn. -/
theorem Works.step (hsite : Site owner start origin) (h : Works origin owner place start made b) :
    Works origin owner place start (made + (b.nextTurn?.toList.map (·.place)).count place) b.step.2 := by
  have hstanding := Battle.moves_standing b.step_moves h.standing
  cases hturn : b.nextTurn? with
  | none =>
    obtain ⟨hcore, hwarriors, -, -⟩ := Battle.step_of_no_turn hturn
    refine ⟨hstanding, h.writer.step, ?_, ?_⟩
    · rw [hwarriors]
      exact h.stands
    · rw [hcore]
      exact h.bombing
  | some t =>
    obtain ⟨-, w, hw, -, hwarriors, hcore, -⟩ := Battle.step_of_turn hturn
    rw [Option.toList_some, List.map_singleton, List.count_singleton]
    by_cases hself : t.place = place
    · obtain rfl : w = warrior owner (Int64.ofNat (start + made % 3)) := by
        rw [hself, h.stands] at hw
        exact (Option.some.inj hw).symm
      obtain ⟨hlt, -⟩ := List.getElem?_eq_some_iff.1 hw
      obtain ⟨hexecuted, hbombing⟩ := h.executed hsite
      rw [if_pos (beq_iff_eq.2 hself)]
      refine ⟨hstanding, h.writer.step, ?_, ?_⟩
      · rw [hwarriors, ← hself, List.getElem?_set_self hlt, hexecuted]
      · rw [hcore]
        exact hbombing
    · have hid : w.id ≠ owner.program := by
        intro hsame
        exact hself (h.standing.distinct.place_eq hw h.stands hsame)
      rw [if_neg (by simpa using hself)]
      refine ⟨hstanding, h.writer.step, ?_, ?_⟩
      · rw [hwarriors, List.getElem?_set_ne hself]
        exact h.stands
      · rw [hcore, h.writer.coreAfter_eq hid]
        exact h.bombing

/-- whatever is requested without loading anybody, the dwarf goes on with its work -/
theorem Works.after [WordSource G] (hsite : Site owner start origin) (h : Works origin owner place start made b)
    {plays : List Request} (hnone : b.loaded plays = []) :
    Works origin owner place start (made + ((b.turns plays).map (·.place)).count place) (b.after plays) := by
  -- the invariant goes along with the turns taken so far
  refine @Battle.after_carries_of_no_loading G
    (fun ts c => Works origin owner place start (made + (ts.map (·.place)).count place) c) ?_ [] b h _ ?_ ?_ plays hnone
  · intro ts c hc
    have hstep := hc.step hsite
    rw [Nat.add_assoc, ← List.count_append, ← List.map_append] at hstep
    exact hstep
  · intro ts c generator hc
    exact hc.move (.noted generator c.log) rfl rfl
  · intro ts c hcrowd hc
    exact hc.move (.opened hcrowd) rfl rfl

end Dwarf

namespace Battle

variable {G : Type} [WordSource G]

/-! ## Main result -/

/-- when the game is opened, the dwarf is ready to work, in a place where it is safe from itself -/
theorem dwarf_works {rules : Rules} {g : G} {b₀ : Battle G} (h₀ : ofRules rules g = .ok b₀)
    (hwrap : rules.placement = .wrapping) (hsize : rules.coreSize < 2 ^ 61) (hfour : 4 ∣ rules.coreSize)
    {requests : List Request} (hidle : ∀ request ∈ requests, request ≠ .step ∧ ∀ budget, request ≠ .run budget)
    {before behind : List Loading} {dwarf : Loading} (hloaded : b₀.loaded requests = before ++ dwarf :: behind)
    (hdwarf : dwarf.code = Roster.dwarf) (hothers : ∀ l ∈ before ++ behind, ∀ c ∈ l.code, c.op.isHarmless = true) :
    let origin := (b₀.after requests).core
    Dwarf.Site ⟨dwarf.id, dwarf.process⟩ dwarf.start origin ∧
      Dwarf.Works origin ⟨dwarf.id, dwarf.process⟩ before.length dwarf.start 0 (b₀.after (requests ++ [.start])) := by
  intro origin
  have hstamped : dwarf.stamped = Dwarf.code ⟨dwarf.id, dwarf.process⟩ := by
    rw [Loading.stamped, hdwarf]
    rfl
  have hcoreSize : origin.size = rules.coreSize := (orderly_after h₀ requests).size_eq
  obtain ⟨hstart, hplace, hcode⟩ := loaded_at h₀ hwrap (by omega) hidle hloaded
  have hsite : Dwarf.Site ⟨dwarf.id, dwarf.process⟩ dwarf.start origin := by
    refine ⟨?_, ?_, ?_, ?_⟩
    · rw [hcoreSize]
      exact hfour
    · rw [hcoreSize]
      exact hsize
    · rw [hcoreSize]
      exact hstart
    · rw [← hstamped]
      exact hcode
  have hopened : b₀.after (requests ++ [.start]) = { b₀.after requests with turn := some 0 } := by
    rw [after_append, after_start (List.ne_nil_of_mem (List.mem_of_getElem? hplace))]
  have hwriter : SoleWriter dwarf.id (b₀.after (requests ++ [.start])) := by
    apply soleWriter_of_loaded h₀ _ hothers
    rw [loaded_start, hloaded]
  refine ⟨hsite, standing_after h₀ _, hwriter, ?_, ?_⟩
  · rw [hopened]
    rw [Loading.warrior, hstamped] at hplace
    exact hplace
  · rw [hopened]
    exact hsite.bombing

/-- **The dwarf never bombs itself.** In a new battle in a core of less than `2 ^ 61` cells, a multiple of four, where a
program has to find all its cells free, a dwarf and any other programs are loaded, in any order and at any places, and
then the game is opened. If no code but the dwarf's has a MOV or an ADD, then after whatever is requested without
loading anybody, let the dwarf have had `made` turns:
- it is alive, and about to execute the instruction of its loop that is due;
- all cells are as they were loaded, but for those whose offset from its start is 3 modulo 4;
- in its pass `j`, from the ADD to the end of the pass, the distance in its bomb is `4 * j`, as a word;
- after its pass `j`, there is a bomb of its own at each of the distances up to `4 * j`. -/
theorem dwarf_law {rules : Rules} {g : G} {b₀ : Battle G} (h₀ : ofRules rules g = .ok b₀)
    (hwrap : rules.placement = .wrapping) (hsize : rules.coreSize < 2 ^ 61) (hfour : 4 ∣ rules.coreSize)
    {requests : List Request} (hidle : ∀ request ∈ requests, request ≠ .step ∧ ∀ budget, request ≠ .run budget)
    {before behind : List Loading} {dwarf : Loading} (hloaded : b₀.loaded requests = before ++ dwarf :: behind)
    (hdwarf : dwarf.code = Roster.dwarf) (hothers : ∀ l ∈ before ++ behind, ∀ c ∈ l.code, c.op.isHarmless = true)
    {plays : List Request} (hnone : (b₀.after (requests ++ [.start])).loaded plays = []) :
    let b := b₀.after (requests ++ [.start])
    let now := b.after plays
    let made := ((b.turns plays).map (·.place)).count before.length
    (∃ w, now.warriors[before.length]? = some w ∧ w.id = dwarf.id ∧ w.alive = true ∧
      w.processes = [Int64.ofNat (dwarf.start + made % 3)]) ∧
    (∀ x : Int, (x - dwarf.start) % rules.coreSize % 4 ≠ 3 → now.core.read x = (b₀.after requests).core.read x) ∧
    ∀ j : Nat, 1 ≤ j →
      (made = 3 * j ∨ made + 1 = 3 * j ∨ made + 2 = 3 * j →
        now.core.read (dwarf.start + 3) = Dwarf.bomb ⟨dwarf.id, dwarf.process⟩ (Int64.ofNat (4 * j))) ∧
      (3 * j ≤ made → ∀ i : Nat, 1 ≤ i → i ≤ j →
        (now.core.read (dwarf.start + 3 + 4 * i)).op = .dat ∧
          (now.core.read (dwarf.start + 3 + 4 * i)).ownerProgram = some dwarf.id) := by
  intro b now made
  obtain ⟨hsite, hopening⟩ := dwarf_works h₀ hwrap hsize hfour hidle hloaded hdwarf hothers
  have hworks : Dwarf.Works (b₀.after requests).core ⟨dwarf.id, dwarf.process⟩ before.length dwarf.start made now := by
    have hafter := hopening.after hsite hnone
    rw [Nat.zero_add] at hafter
    exact hafter
  refine ⟨⟨_, hworks.stands, rfl, rfl, rfl⟩, ?_, ?_⟩
  · intro x hx
    have hdvd : (4 : Int) ∣ (rules.coreSize : Int) := Int.natCast_dvd_natCast.2 hfour
    rw [Int.emod_emod_of_dvd _ hdvd] at hx
    exact hworks.bombing.kept x hx
  · intro j hj
    refine ⟨?_, ?_⟩
    · intro hpass
      rw [hworks.bombing.armed, show (made + 2) / 3 = j by omega]
    · intro hdone i hfirst hlast
      obtain ⟨distance, hread⟩ := hworks.bombing.bombed i hfirst (by omega)
      rw [hread]
      exact ⟨rfl, rfl⟩

/-- round the end of a core of eight cells, two passes among jumps, one of which is bombed in the first -/
theorem dwarf_law_two_passes :
    let bombed : Loading := ⟨0, 0, [Cell.jmp 0], 5⟩
    let dwarf : Loading := ⟨1, 0, Roster.dwarf, 6⟩
    let missed : Loading := ⟨2, 0, [Cell.jmp 0], 3⟩
    let requests : List Request :=
      [.loadAt 0 0 bombed.code 5, .loadAt 1 0 Roster.dwarf (-2), .loadAt 2 0 missed.code 3]
    let plays : List Request := [.run 13, .step, .step]
    let b := eightEmpty.after (requests ++ [.start])
    ofRules eightEmpty.rules eightEmpty.generator = .ok eightEmpty ∧
      eightEmpty.loaded requests = [bombed] ++ dwarf :: [missed] ∧ b.loaded plays = [] ∧
      ((b.turns plays).map (·.place)).count 1 = 6 ∧
      (∃ w, (b.after plays).warriors[1]? = some w ∧ w.alive = true ∧ w.processes = [6]) ∧
      (b.after plays).core.read 3 = (Cell.jmp 0).ownedBy 2 0 ∧
      (b.after plays).core.read 9 = Dwarf.bomb ⟨1, 0⟩ 8 ∧
      ((b.after plays).core.read 13).op = .dat ∧ ((b.after plays).core.read 13).ownerProgram = some 1 := by
  intro bombed dwarf missed requests plays b
  have hnew : ofRules eightEmpty.rules eightEmpty.generator = .ok eightEmpty := rfl
  have hidle : ∀ request ∈ requests, request ≠ .step ∧ ∀ budget, request ≠ .run budget := by simp [requests]
  have hloaded : eightEmpty.loaded requests = [bombed] ++ dwarf :: [missed] := by decide +kernel
  have hothers : ∀ l ∈ [bombed] ++ [missed], ∀ c ∈ l.code, c.op.isHarmless = true := by decide +kernel
  have hnobody : b.loaded plays = [] := by decide +kernel
  have hmade : ((b.turns plays).map (·.place)).count 1 = 6 := by decide +kernel
  obtain ⟨⟨w, hw, -, halive, hprocesses⟩, hkept, hbombs⟩ :=
    dwarf_law hnew rfl (by decide) (by decide) hidle hloaded rfl hothers hnobody
  obtain ⟨hdistance, hdropped⟩ := hbombs 2 (by decide)
  obtain ⟨hop, howner⟩ := hdropped (Nat.le_of_eq hmade.symm) 1 (by decide) (by decide)
  have hbefore : (eightEmpty.after requests).core.read 3 = (Cell.jmp 0).ownedBy 2 0 := by decide +kernel
  refine ⟨hnew, hloaded, hnobody, hmade, ⟨w, hw, halive, ?_⟩, (hkept 3 (by decide)).trans hbefore,
    hdistance (Or.inl hmade), hop, howner⟩
  rw [hprocesses]
  exact congrArg (fun made => [Int64.ofNat (6 + made % 3)]) hmade

end Battle

end CoreWar
