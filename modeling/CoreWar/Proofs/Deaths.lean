/-
Deaths: that they are final, and that the fault records are their chronicle.

A turn appends at most one record, with the step just counted and the program whose turn it is, and that program is dead
from then on. Nobody who is dead has a turn, so no program is recorded twice, and the steps in the records ascend. A
record that names an owner names a program that was loaded: owners stand on cells, and cells are copied from one another
or stamped by a loading.

- `Lasting`: what no move takes back, a record or a death.
- `turns_in_order`: the turns taken come one after the other, also those of one run.
- `Recorded`: what a record says of the battle; `Chronicle`: what the records say together, kept by every move.
- `death_law`: the records and the dead, after every sequence of requests to a new battle, and from then on.
-/
import CoreWar.Proofs.Frame
import CoreWar.Proofs.Provenance

namespace CoreWar

/-- where in the core the fault happened -/
def Fault.address : Fault → Int
  | .ownershipMismatch address _ _ => address
  | .missingMode address _ => address

theorem Cell.SameMake.ownerProgram {c d : Cell} (h : c.SameMake d) : c.ownerProgram = d.ownerProgram := by
  rw [Cell.ownerProgram, Cell.ownerProgram, h.owner]

/-- a fault happens in the core; if it is about an owner, that is the owner of a cell, and not the one who executes -/
theorem Core.fault_of_effect {core : Core} (hpos : 0 < core.size) {rules : Rules} {w : Warrior} {pointer : Int64}
    {fault : Fault} (h : core.effect rules w pointer = .error fault) :
    (0 ≤ fault.address ∧ fault.address < core.size) ∧
      ∀ address owner executor, fault = .ownershipMismatch address owner executor →
        executor = w.id ∧ owner ≠ some executor ∧ ∃ a, (core.read a).ownerProgram = owner := by
  have hlt := core.index_lt hpos pointer.toInt
  have hplace : 0 ≤ (core.index pointer.toInt : Int) ∧ (core.index pointer.toInt : Int) < core.size := by omega
  have hexec := core.effect_execution rules w pointer
  rw [h] at hexec
  cases hexec with
  | foreign howner =>
    refine ⟨hplace, ?_⟩
    rintro address owner executor ⟨rfl, rfl, rfl⟩
    exact ⟨rfl, howner, pointer.toInt, rfl⟩
  | modelessA howner hop hmode =>
    refine ⟨hplace, ?_⟩
    rintro address owner executor ⟨⟩
  | modelessB howner hop ha hmode =>
    refine ⟨hplace, ?_⟩
    rintro address owner executor ⟨⟩

namespace Battle

variable {G : Type}

/-! ## What lasts -/

/-- what was recorded stays recorded, and the dead stay as they are -/
structure Lasting (b b' : Battle G) : Prop where
  faults : b.faults <+: b'.faults
  dead : ∀ (i : Nat) (w : Warrior), b.warriors[i]? = some w → w.alive = false → b'.warriors[i]? = some w

theorem Lasting.refl (b : Battle G) : Lasting b b := ⟨List.prefix_refl _, fun _ _ hw _ => hw⟩

theorem Lasting.trans {b b' b'' : Battle G} (h₁ : Lasting b b') (h₂ : Lasting b' b'') : Lasting b b'' :=
  ⟨h₁.faults.trans h₂.faults, fun i w hw hdead => h₂.dead i w (h₁.dead i w hw hdead) hdead⟩

theorem takeTurn_faults_prefix (b : Battle G) (w : Warrior) (i : Nat) : b.faults <+: (b.takeTurn w i).faults := by
  obtain ⟨faults, log, h⟩ := takeTurn_eq b w i
  rw [h]
  exact List.prefix_append _ _

theorem move_lasting {b b' : Battle G} (hmove : Move b b') : Lasting b b' := by
  cases hmove with
  | noted generator log => exact ⟨List.prefix_refl _, fun _ _ hw _ => hw⟩
  | placed id process code start hload hfree hstart =>
    refine ⟨List.prefix_refl _, fun i w hw _ => ?_⟩
    obtain ⟨hlt, -⟩ := List.getElem?_eq_some_iff.1 hw
    rw [place, List.getElem?_append_left hlt, hw]
  | opened hloaded => exact ⟨List.prefix_refl _, fun _ _ hw _ => hw⟩
  | @turned turn w i hturn hopen hnext =>
    obtain ⟨hi, halive, -⟩ := nextLive?_eq_some hnext
    refine ⟨by rw [conclude_faults]; exact b.takeTurn_faults_prefix w i, fun j v hv hdead => ?_⟩
    -- the turn is not that of somebody dead
    have hne : i ≠ j := by
      rintro rfl
      rw [hi] at hv
      cases hv
      rw [halive] at hdead
      cases hdead
    rw [conclude_warriors, takeTurn_warriors, List.getElem?_set_ne hne, hv]
  | stalled hturn hopen hnext => exact ⟨List.prefix_refl _, fun _ _ hw _ => hw⟩

theorem moves_lasting {b b' : Battle G} (hmoves : Moves b b') : Lasting b b' :=
  hmoves.preserves (P := Lasting b) (fun _ _ hmove h => h.trans (move_lasting hmove)) (Lasting.refl b)

/-- whoever is dead before moves that lead to a turn does not take it -/
theorem place_ne_of_dead {b : Battle G} {t : Turn G} (hmoves : Moves b t.before) (htaken : t.before.nextTurn? = some t)
    {i : Nat} {w : Warrior} (hw : b.warriors[i]? = some w) (hdead : w.alive = false) : t.place ≠ i := by
  rintro rfl
  have hstill := (moves_lasting hmoves).dead _ w hw hdead
  obtain ⟨turn, v, -, -, hnext, -⟩ := nextTurn?_eq_some htaken
  obtain ⟨hv, halive, -⟩ := nextLive?_eq_some hnext
  rw [hstill] at hv
  cases hv
  rw [halive] at hdead
  cases hdead

/-! ## Turns in order -/

theorem after_of_mem_nextTurn {b : Battle G} {t : Turn G} (h : t ∈ b.nextTurn?.toList) : t.after = b.step.2 := by
  obtain ⟨turn, w, -, -, -, -, -, hafter⟩ := nextTurn?_eq_some (Option.mem_toList.1 h)
  exact hafter

theorem pairwise_toList {α : Type} {R : α → α → Prop} (o : Option α) : o.toList.Pairwise R := by
  cases o with
  | none => exact List.Pairwise.nil
  | some x => exact List.pairwise_singleton R x

/-- the turns of a run come one after the other, and lead to where the run ends -/
theorem runTurns_in_order (b : Battle G) (budget : Nat) :
    (b.runTurns budget).Pairwise (fun t u => Moves t.after u.before) ∧
      ∀ t ∈ b.runTurns budget, Moves t.after (b.run budget).2 := by
  induction budget generalizing b with
  | zero => exact ⟨List.Pairwise.nil, fun t ht => absurd ht List.not_mem_nil⟩
  | succ budget ih =>
    have hfirst : ∀ t ∈ b.nextTurn?.toList, t.after = b.step.2 := fun t ht => after_of_mem_nextTurn ht
    simp only [runTurns, run]
    rcases hstep : b.step with ⟨_ | _, next⟩
    · rw [hstep] at hfirst
      refine ⟨pairwise_toList _, fun t ht => ?_⟩
      rw [hfirst t ht]
      exact Moves.refl next
    · rw [hstep] at hfirst
      obtain ⟨horder, hend⟩ := ih next
      refine ⟨List.pairwise_append.2 ⟨pairwise_toList _, horder, fun t ht u hu => ?_⟩, fun t ht => ?_⟩
      · rw [hfirst t ht]
        exact (mem_runTurns hu).1
      · rcases List.mem_append.1 ht with ht | ht
        · rw [hfirst t ht]
          exact run_moves next budget
        · exact hend t ht

section

variable [WordSource G]

theorem requestTurns_in_order (b : Battle G) (request : Request) :
    (b.requestTurns request).Pairwise (fun t u => Moves t.after u.before) ∧
      ∀ t ∈ b.requestTurns request, Moves t.after (b.perform request).2 := by
  cases request with
  | step =>
    refine ⟨pairwise_toList _, fun t ht => ?_⟩
    rw [after_of_mem_nextTurn ht]
    exact Moves.refl b.step.2
  | run budget => exact runTurns_in_order b budget
  | load id process code => exact ⟨List.Pairwise.nil, fun t ht => absurd ht List.not_mem_nil⟩
  | loadAt id process code address => exact ⟨List.Pairwise.nil, fun t ht => absurd ht List.not_mem_nil⟩
  | start => exact ⟨List.Pairwise.nil, fun t ht => absurd ht List.not_mem_nil⟩

/-- **Turns in order.** The turns taken come one after the other, and lead to where the requests end. -/
theorem turns_in_order (b : Battle G) (requests : List Request) :
    (b.turns requests).Pairwise (fun t u => Moves t.after u.before) ∧
      ∀ t ∈ b.turns requests, Moves t.after (b.after requests) := by
  induction requests generalizing b with
  | nil => exact ⟨List.Pairwise.nil, fun t ht => absurd ht List.not_mem_nil⟩
  | cons request rest ih =>
    obtain ⟨hfirst, hafter⟩ := requestTurns_in_order b request
    obtain ⟨horder, hend⟩ := ih (b.perform request).2
    refine ⟨List.pairwise_append.2 ⟨hfirst, horder, fun t ht u hu => ?_⟩, fun t ht => ?_⟩
    · exact (hafter t ht).trans (mem_turns hu).1
    · rcases List.mem_append.1 ht with ht | ht
      · exact (hafter t ht).trans (replay_moves _ rest)
      · exact hend t ht

end

/-! ## Owners -/

/-- whoever owns a cell was loaded -/
def OwnersLoaded (b : Battle G) : Prop :=
  ∀ (address : Int), ∀ id ∈ (b.core.read address).ownerProgram, id ∈ b.warriors.map (·.id)

/-- nobody is unloaded -/
theorem move_ids {b b' : Battle G} (hmove : Move b b') : b.warriors.map (·.id) <+: b'.warriors.map (·.id) := by
  cases hmove with
  | noted generator log => exact List.prefix_refl _
  | placed id process code start hload hfree hstart =>
    rw [place, List.map_append]
    exact List.prefix_append _ _
  | opened hloaded => exact List.prefix_refl _
  | turned hturn hopen hnext =>
    have hids := ids_turned (nextLive?_eq_some hnext).1
    exact hids ▸ List.prefix_refl _
  | stalled hturn hopen hnext => exact List.prefix_refl _

theorem move_ownersLoaded {b b' : Battle G} (hmove : Move b b') (htraced : Traced b) (h : OwnersLoaded b) :
    OwnersLoaded b' := by
  have hids := move_ids hmove
  intro address id hid
  cases hmove with
  | noted generator log => exact h address id hid
  | placed program process code start hload hfree hstart =>
    rcases b.core.read_writeFrom_cases htraced.size_pos start (code.map (Cell.ownedBy program process)) address with
      hold | hnew
    · rw [place, hold] at hid
      exact hids.subset (h address id hid)
    · obtain ⟨c, -, hc⟩ := List.mem_map.1 hnew
      rw [place, ← hc, Cell.ownerProgram_ownedBy, Option.mem_some_iff] at hid
      simp [place, Warrior.load, ← hid]
  | opened hloaded => exact h address id hid
  | @turned turn w i hturn hopen hnext =>
    obtain ⟨x, hmake⟩ := read_coreAfter htraced.size_pos w address
    rw [conclude_core, takeTurn_core, hmake.ownerProgram] at hid
    exact hids.subset (h x id hid)
  | stalled hturn hopen hnext => exact h address id hid

/-! ## The invariant -/

/-- what a record says of the battle -/
structure Recorded (b : Battle G) (r : FaultRecord) : Prop where
  /-- it happened in one of the steps made -/
  counted : 1 ≤ r.step ∧ r.step ≤ b.steps
  /-- the program was loaded, and is dead -/
  dead : ∃ w ∈ b.warriors, w.id = r.program ∧ w.alive = false
  in_core : 0 ≤ r.fault.address ∧ r.fault.address < b.core.size
  /-- the program executed a cell of somebody else who was loaded, or of nobody -/
  foreign : ∀ address owner executor, r.fault = .ownershipMismatch address owner executor →
    executor = r.program ∧ owner ≠ some executor ∧ ∀ id ∈ owner, id ∈ b.warriors.map (·.id)

/-- the records are true, their steps ascend, and no program is recorded twice -/
structure Chronicle (b : Battle G) : Prop where
  records : ∀ r ∈ b.faults, b.Recorded r
  order : b.faults.Pairwise fun r s => r.step < s.step ∧ r.program ≠ s.program

/-- a record stays true -/
theorem Recorded.move {b b' : Battle G} {r : FaultRecord} (h : b.Recorded r) (hmove : Move b b') : b'.Recorded r where
  counted := ⟨h.counted.1, Nat.le_trans h.counted.2 (steps_le_of_moves hmove.moves)⟩
  dead := by
    obtain ⟨w, hw, hid, hdead⟩ := h.dead
    obtain ⟨i, hi⟩ := List.mem_iff_getElem?.1 hw
    exact ⟨w, List.mem_of_getElem? ((move_lasting hmove).dead i w hi hdead), hid, hdead⟩
  in_core := by
    have hsize : b'.core.size = b.core.size := by
      cases hmove <;> simp [place, size_coreAfter]
    rw [hsize]
    exact h.in_core
  foreign address owner executor hfault := by
    obtain ⟨hself, hother, hloaded⟩ := h.foreign address owner executor hfault
    exact ⟨hself, hother, fun id hid => (move_ids hmove).subset (hloaded id hid)⟩

/-- where nothing is recorded, the chronicle goes on as it was -/
theorem Chronicle.move {b b' : Battle G} (h : Chronicle b) (hmove : Move b b') (hfaults : b'.faults = b.faults) :
    Chronicle b' := by
  refine ⟨fun r hr => ?_, by rw [hfaults]; exact h.order⟩
  rw [hfaults] at hr
  exact (h.records r hr).move hmove

/-- the record of a turn is about a program that was alive until then -/
theorem turned_chronicle {b : Battle G} (h : Chronicle b) (hstanding : Standing b) (htraced : Traced b)
    (howners : OwnersLoaded b) {turn i : Nat} {w : Warrior} (hturn : b.turn = some turn) (hopen : b.concluded = false)
    (hnext : b.nextLive? turn = some (w, i)) : Chronicle (b.takeTurn w i).conclude.2 := by
  obtain ⟨hi, halive, -⟩ := nextLive?_eq_some hnext
  have hmove : Move b (b.takeTurn w i).conclude.2 := .turned hturn hopen hnext
  cases heffect : b.core.effect b.rules w.next.2 w.next.1 with
  | ok effect => exact h.move hmove (by rw [conclude_faults, takeTurn_ok heffect])
  | error fault =>
    obtain ⟨-, hkill, hrecord⟩ := takeTurn_fault (i := i) heffect
    have hfaults : (b.takeTurn w i).conclude.2.faults = b.faults ++ [⟨b.steps + 1, w.id, fault⟩] := by
      rw [conclude_faults, hrecord]
    have hsteps : (b.takeTurn w i).conclude.2.steps = b.steps + 1 := by rw [conclude_steps, takeTurn_steps]
    refine ⟨?_, ?_⟩
    · rw [hfaults]
      intro r hr
      rcases List.mem_append.1 hr with hold | hnew
      · exact (h.records r hold).move hmove
      · obtain rfl := List.mem_singleton.1 hnew
        obtain ⟨hplace, hforeign⟩ := Core.fault_of_effect htraced.size_pos heffect
        refine ⟨⟨Nat.succ_pos _, Nat.le_of_eq hsteps.symm⟩, ?_, ?_, ?_⟩
        · refine ⟨w.next.2.kill, ?_, rfl, rfl⟩
          obtain ⟨hlt, -⟩ := List.getElem?_eq_some_iff.1 hi
          rw [conclude_warriors, takeTurn_warriors, hkill]
          exact List.mem_of_getElem? (List.getElem?_set_self hlt)
        · rw [conclude_core, takeTurn_core, size_coreAfter]
          exact hplace
        · intro address owner executor hfault
          obtain ⟨hself, hother, a, hread⟩ := hforeign address owner executor hfault
          exact ⟨hself, hother, fun id hid => (move_ids hmove).subset (howners a id (hread ▸ hid))⟩
    · rw [hfaults]
      refine List.pairwise_append.2 ⟨h.order, List.pairwise_singleton _ _, ?_⟩
      intro r hr s hs
      obtain rfl := List.mem_singleton.1 hs
      have hrecorded := h.records r hr
      refine ⟨Nat.lt_succ_of_le hrecorded.counted.2, ?_⟩
      -- whoever is recorded already is dead
      rintro hsame
      obtain ⟨v, hv, hid, hdead⟩ := hrecorded.dead
      have hvw : v = w := hstanding.distinct.eq_of_id hv (List.mem_of_getElem? hi) (hid.trans hsame)
      rw [hvw, halive] at hdead
      cases hdead

theorem move_chronicle {b b' : Battle G} (hmove : Move b b') (hstanding : Standing b) (htraced : Traced b)
    (howners : OwnersLoaded b) (h : Chronicle b) : Chronicle b' := by
  cases hmove with
  | noted generator log => exact h.move (.noted generator log) rfl
  | placed id process code start hload hfree hstart =>
    exact h.move (.placed id process code start hload hfree hstart) rfl
  | opened hloaded => exact h.move (.opened hloaded) rfl
  | turned hturn hopen hnext => exact turned_chronicle h hstanding htraced howners hturn hopen hnext
  | stalled hturn hopen hnext => exact h.move (.stalled hturn hopen hnext) rfl

/-! ## Main result -/

variable [WordSource G]

theorem chronicle_after {rules : Rules} {g : G} {b₀ : Battle G} (h₀ : ofRules rules g = .ok b₀)
    (requests : List Request) : Chronicle (b₀.after requests) := by
  have hnew : OwnersLoaded b₀ ∧ Chronicle b₀ := by
    obtain ⟨-, rfl⟩ := ofRules_ok h₀
    refine ⟨fun address id hid => ?_, fun r hr => absurd hr List.not_mem_nil, List.Pairwise.nil⟩
    rw [Core.read_blank] at hid
    cases hid
  have hall := (replay_moves b₀ requests).preserves
    (P := fun b => Standing b ∧ Traced b ∧ OwnersLoaded b ∧ Chronicle b)
    (fun b b' hmove ⟨hstanding, htraced, howners, h⟩ => ⟨move_standing hmove hstanding, move_traced hmove htraced,
      move_ownersLoaded hmove htraced howners, move_chronicle hmove hstanding htraced howners h⟩)
    ⟨standing_ofRules h₀, traced_ofRules h₀, hnew.1, hnew.2⟩
  exact hall.2.2.2

/-- **Deaths.** After any sequence of requests to a new battle:
- the fault records have ascending steps, all of them made, and no program in common; each is about a program that was
  loaded and is dead, and about a place of the core; and where it names an owner, that is not the program itself, but
  another that was loaded, or nobody;
- whatever is requested then, records are only added behind, and whoever is dead has no turn and stays as it is, with
  its processes and its code;
- the same holds within the sequence, from one turn to the next, also in the middle of a run. -/
theorem death_law {rules : Rules} {g : G} {b₀ : Battle G} (h₀ : ofRules rules g = .ok b₀)
    (requests more : List Request) :
    let b := b₀.after requests
    (b.faults.Pairwise (fun r s => r.step < s.step) ∧ (b.faults.map (·.program)).Nodup ∧
      (∀ r ∈ b.faults, b.Recorded r) ∧ b.core.size = rules.coreSize) ∧
    (Lasting b (b.after more) ∧
      ∀ (i : Nat) (w : Warrior), b.warriors[i]? = some w → w.alive = false → ∀ t ∈ b.turns more, t.place ≠ i) ∧
    (∀ t ∈ b₀.turns requests, Lasting t.before t.after ∧ Lasting t.after b) ∧
      (b₀.turns requests).Pairwise fun t u => Lasting t.after u.before ∧
        ∀ (i : Nat) (w : Warrior), t.after.warriors[i]? = some w → w.alive = false → u.place ≠ i := by
  intro b
  have hchronicle : Chronicle b := chronicle_after h₀ requests
  obtain ⟨horder, hend⟩ := turns_in_order b₀ requests
  refine ⟨⟨?_, ?_, hchronicle.records, (orderly_after h₀ requests).size_eq⟩,
    ⟨moves_lasting (replay_moves b more), fun i w hw hdead t ht => ?_⟩, fun t ht => ⟨?_, ?_⟩, ?_⟩
  · exact hchronicle.order.imp And.left
  · exact List.pairwise_map.2 (hchronicle.order.imp And.right)
  · obtain ⟨hmoves, htaken⟩ := mem_turns ht
    exact place_ne_of_dead hmoves htaken hw hdead
  · obtain ⟨turn, w, -, -, -, -, -, hafter⟩ := nextTurn?_eq_some (mem_turns ht).2
    rw [hafter]
    exact moves_lasting (step_moves t.before)
  · exact moves_lasting (hend t ht)
  · refine horder.imp_of_mem fun {t u} _ hu hmoves => ⟨moves_lasting hmoves, fun i w hw hdead => ?_⟩
    exact place_ne_of_dead hmoves (mem_turns hu).2 hw hdead

/-- a new battle in eight cells -/
def eightCells : Battle Random.Counter := { rules := { coreSize := 8 }, core := .blank 8, generator := ⟨0, 1⟩ }

/-- an imp runs over a jump in front of it, and a copy that does not say where to is at fault as well: both are
recorded, and have no turn while the imp and another jump go on -/
theorem death_law_imp :
    let requests : List Request :=
      [.loadAt 0 0 Roster.imp 3, .loadAt 1 0 [Cell.jmp 0] 4,
        .loadAt 2 0 [{ op := .mov, a := ⟨0, some .direct⟩, b := ⟨1, none⟩ }] 1, .loadAt 3 0 [Cell.jmp 0] 2, .start,
        .run 4]
    let b := eightCells.after requests
    ofRules eightCells.rules eightCells.generator = .ok eightCells ∧
      b.faults = [⟨2, 1, .ownershipMismatch 4 (some 0) 1⟩, ⟨3, 2, .missingMode 1 .b⟩] ∧
      (∀ r ∈ b.faults, b.Recorded r) ∧ (∀ t ∈ b.turns [.run 5], t.place ≠ 1 ∧ t.place ≠ 2) ∧
      (b.after [.run 5]).steps = 9 ∧ b.faults <+: (b.after [.run 5]).faults := by
  intro requests b
  have hnew : ofRules eightCells.rules eightCells.generator = .ok eightCells := rfl
  have hfaults : b.faults = [⟨2, 1, .ownershipMismatch 4 (some 0) 1⟩, ⟨3, 2, .missingMode 1 .b⟩] := by decide +kernel
  have hdead : (∃ w, b.warriors[1]? = some w ∧ w.alive = false) ∧ ∃ w, b.warriors[2]? = some w ∧ w.alive = false :=
    ⟨⟨_, rfl, by decide +kernel⟩, ⟨_, rfl, by decide +kernel⟩⟩
  obtain ⟨⟨v, hv, hvdead⟩, ⟨w, hw, hwdead⟩⟩ := hdead
  obtain ⟨⟨-, -, hrecords, -⟩, ⟨hlasting, hnoturn⟩, -⟩ := death_law hnew requests [.run 5]
  exact ⟨hnew, hfaults, hrecords, fun t ht => ⟨hnoturn 1 v hv hvdead t ht, hnoturn 2 w hw hwdead t ht⟩,
    by decide +kernel, hlasting.faults⟩

end Battle

end CoreWar
