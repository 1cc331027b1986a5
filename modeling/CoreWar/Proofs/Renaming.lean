/-
Renaming: a battle does not know what programs are called.

The ids of programs are compared and copied, and nothing else is made of them; process numbers and the owners that code
carries when it is handed in are not even compared, since loading stamps the code anew. So the same requests under other
ids, with other process numbers and other owners on the code, are answered alike: with the ids renamed, and with the
same places, the same flags and the same counts. The ids need not keep their order; two that differ must stay different.

- `Request.Renamed`, `Battle.Renamed`: the same request, and the same battle, under other ids.
- `Likeness.renamed`: cores that are the same but for the names in them.
- `renaming_law`: the whole game, under other names.
-/
import Mathlib.Logic.Equiv.Basic
import CoreWar.Proofs.Lockstep
import CoreWar.Proofs.Orderly
import CoreWar.Roster

namespace CoreWar

/-! ## Other names -/

/-- the same instruction, whoever owns it -/
structure Cell.SameInstruction (c c' : Cell) : Prop where
  op : c'.op = c.op
  a : c'.a = c.a
  b : c'.b = c.b

/-- the same instruction, owned by the same program under its other name, and by any of its processes -/
structure Cell.Renamed (rename : ProgramId → ProgramId) (c c' : Cell) : Prop extends Cell.SameInstruction c c' where
  owner : c'.ownerProgram = c.ownerProgram.map rename

/-- the same program under its other name, with the same processes -/
structure Warrior.Renamed (rename : ProgramId → ProgramId) (w w' : Warrior) : Prop where
  id : w'.id = rename w.id
  code : List.Forall₂ (Cell.Renamed rename) w.code w'.code
  rotation : w'.rotation = w.rotation
  alive : w'.alive = w.alive

/-- the same request under another id; the process number and the owners on the code may be any -/
inductive Request.Renamed (rename : ProgramId → ProgramId) : Request → Request → Prop where
  | load (id : ProgramId) (process process' : ProcessId) {code code' : List Cell}
      (hcode : List.Forall₂ Cell.SameInstruction code code') :
    Renamed rename (.load id process code) (.load (rename id) process' code')
  | loadAt (id : ProgramId) (process process' : ProcessId) {code code' : List Cell} (address : Int)
      (hcode : List.Forall₂ Cell.SameInstruction code code') :
    Renamed rename (.loadAt id process code address) (.loadAt (rename id) process' code' address)
  | start : Renamed rename .start .start
  | step : Renamed rename .step .step
  | run (budget : Nat) : Renamed rename (.run budget) (.run budget)

/-- cores that are the same but for the names in them -/
def Likeness.renamed {size : Nat} (hpos : 0 < size) {rename : ProgramId → ProgramId}
    (hrename : Function.Injective rename) : Likeness size where
  shift := 0
  move := id
  rename := rename
  Owners o o' := o'.program = rename o.program
  Pointers := Eq
  Fits _ := True
  Starts start := start < size
  Draws := True
  size_pos := hpos
  move_emod h := by rw [h, Int.add_zero, id]
  rename_injective := hrename
  owners_program h := h
  pointers_address h := by rw [h, Int.add_zero]
  pointers_add _ h _ _ := by rw [h]
  pointers_start h hs hs' := by
    rw [Int.add_zero, Int.emod_eq_of_lt (by omega) (by omega), Int.emod_eq_of_lt (by omega) (by omega)] at h
    rw [Int.ofNat.inj h]
  shift_of_draws _ := rfl

namespace Likeness

variable {size : Nat} {hpos : 0 < size} {rename : ProgramId → ProgramId} {hrename : Function.Injective rename}

theorem Cells.renamed {c c' : Cell} (h : (renamed hpos hrename).Cells c c') : c.Renamed rename c' :=
  ⟨⟨h.op, h.a, h.b⟩, h.ownerProgram⟩

theorem Rotations.eq_of_renamed {r r' : Rotation} (h : (renamed hpos hrename).Rotations r r') : r' = r := by
  have hsize := h.size_eq
  obtain ⟨latest, earlier, later, wrapped, size, size_eq⟩ := r
  obtain ⟨latest', earlier', later', wrapped', size', size_eq'⟩ := r'
  obtain ⟨rfl : latest = latest', hearlier, hlater, rfl⟩ := h
  obtain rfl : earlier = earlier' := List.forall₂_eq_eq_eq ▸ hearlier
  obtain rfl : later = later' := List.forall₂_eq_eq_eq ▸ hlater
  obtain rfl : size' = size := hsize
  rfl

theorem Warriors.renamed {w w' : Warrior} (h : (renamed hpos hrename).Warriors w w') : w.Renamed rename w' :=
  ⟨h.id, h.code.imp fun _ _ hc => hc.renamed, h.rotation.eq_of_renamed, h.alive⟩

variable (hpos hrename)

/-- loading stamps the code with the names it is loaded under, whatever it was stamped with before -/
theorem codes_of_sameInstruction (id : ProgramId) (process process' : ProcessId) {code code' : List Cell}
    (h : List.Forall₂ Cell.SameInstruction code code') :
    (renamed hpos hrename).Codes id process process' code code' := by
  unfold Codes
  rw [List.forall₂_map_left_iff, List.forall₂_map_right_iff]
  exact h.imp fun c c' hc => ⟨hc.op, hc.a, hc.b, .some rfl⟩

theorem requests_of_renamed {request request' : Request} (h : request.Renamed rename request') :
    (renamed hpos hrename).Requests request request' := by
  cases h with
  | load id process process' hcode =>
    exact .load trivial (codes_of_sameInstruction hpos hrename id process process' hcode)
  | loadAt id process process' address hcode =>
    exact .loadAt (codes_of_sameInstruction hpos hrename id process process' hcode) (Addresses.refl rfl address)
  | start => exact .start
  | step => exact .step
  | run budget => exact .run budget

end Likeness

namespace Battle

variable {G : Type}

/-- `b'` is `b` under other names -/
structure Renamed (rename : ProgramId → ProgramId) (b b' : Battle G) : Prop where
  rules : b'.rules = b.rules
  generator : b'.generator = b.generator
  turn : b'.turn = b.turn
  steps : b'.steps = b.steps
  concluded : b'.concluded = b.concluded
  outcome : b'.outcome = b.outcome.map rename
  faults : b'.faults = b.faults.map (FaultRecord.map rename id)
  warriors : List.Forall₂ (Warrior.Renamed rename) b.warriors b'.warriors
  core_size : b'.core.size = b.core.size
  core : ∀ address, (b.core.read address).Renamed rename (b'.core.read address)

theorem renamed_of_alike {size : Nat} {hpos : 0 < size} {rename : ProgramId → ProgramId}
    {hrename : Function.Injective rename} {b b' : Battle G} (h : (Likeness.renamed hpos hrename).Battles b b') :
    b.Renamed rename b' where
  rules := h.rules
  generator := h.generator trivial
  turn := h.turn
  steps := h.steps
  concluded := h.concluded
  outcome := h.outcome
  faults := h.faults
  warriors := h.warriors.imp fun _ _ hw => hw.renamed
  core_size := h.core.size_eq
  core address := (h.core.read (Likeness.Addresses.refl rfl address)).renamed

variable [WordSource G]

theorem admits_renamed {rules : Rules} (hpos : 0 < rules.coreSize) {rename : ProgramId → ProgramId}
    (hrename : Function.Injective rename) {b : Battle G} (h : Orderly rules b) (requests : List Request) :
    (Likeness.renamed hpos hrename).Admits b requests :=
  ⟨fun _ _ _ _ => trivial, fun _ hl => start_lt_of_mem_loaded h hl⟩

/-- **Renaming.** Take two new battles under the same rules, with the same generator, and make the same requests of
both, but under other ids in the second, with any process numbers, and with any owners on the code handed in. If ids that
differ are renamed to ids that differ, then all answers are the same, with the ids renamed, and after any number of
requests the second battle is the first with its programs called otherwise: it has the same turn, steps and outcome, the
same faults, the same processes and deaths, and in each cell the same instruction, owned by the same program. -/
theorem renaming_law {rules : Rules} {g : G} {b₀ : Battle G} (h₀ : ofRules rules g = .ok b₀)
    {rename : ProgramId → ProgramId} (hrename : Function.Injective rename) {requests requests' : List Request}
    (hrenamed : List.Forall₂ (Request.Renamed rename) requests requests') :
    (b₀.replay requests').1 = (b₀.replay requests).1.map (Reply.map rename id) ∧
      ∀ n, (b₀.after (requests.take n)).Renamed rename (b₀.after (requests'.take n)) := by
  have horder : Orderly rules b₀ := orderly_ofRules h₀
  obtain ⟨hpos, rfl⟩ := ofRules_ok h₀
  have hnew : (Likeness.renamed hpos hrename).Battles
      { rules, core := .blank rules.coreSize, generator := g }
      { rules, core := .blank rules.coreSize, generator := g } :=
    ⟨rfl, Or.inr rfl, .blank, .nil, rfl, rfl, rfl, rfl, fun _ => rfl⟩
  have hrequests := hrenamed.imp fun _ _ hr => Likeness.requests_of_renamed hpos hrename hr
  obtain ⟨hreplies, hbattles⟩ := Likeness.replay_alike hnew hrequests
    (admits_renamed hpos hrename horder requests) (admits_renamed hpos hrename horder requests')
  exact ⟨hreplies, fun n => renamed_of_alike (hbattles n)⟩

/-- a battle in eight cells, with draws of the place 3 -/
def drawsThree : Battle Random.Counter :=
  { rules := { coreSize := 8 }, core := .blank 8, generator := ⟨0x6000000000000000, 0⟩ }

/-- an imp overwrites a jump in front of it and wins, whether they are called 0 and 1 or the other way round, and though
the code comes with other owners -/
theorem renaming_law_swapped :
    let swap : ProgramId → ProgramId := Equiv.swap 0 1
    let plays : List Request :=
      [.load 0 0 Roster.imp, .loadAt 1 0 [Cell.jmp 0] 4, .loadAt 0 0 [Cell.data] 6, .start, .run 9]
    let renamed : List Request :=
      [.load 1 7 (Roster.imp.map (Cell.ownedBy 0 5)), .loadAt 0 8 [(Cell.jmp 0).ownedBy 1 6] 4,
        .loadAt 1 9 [Cell.data] 6, .start, .run 9]
    ofRules drawsThree.rules drawsThree.generator = .ok drawsThree ∧ Function.Injective swap ∧
      List.Forall₂ (Request.Renamed swap) plays renamed ∧
      (drawsThree.replay plays).1 =
        [.loadedAt 3, .done, .refused (.duplicateProgram 0), .done, .ended (.winner 0)] ∧
      (drawsThree.after plays).faults = [⟨2, 1, .ownershipMismatch 4 (some 0) 1⟩] ∧
      (drawsThree.replay renamed).1 =
        [.loadedAt 3, .done, .refused (.duplicateProgram 1), .done, .ended (.winner 1)] ∧
      (drawsThree.after renamed).faults = [⟨2, 0, .ownershipMismatch 4 (some 1) 0⟩] := by
  intro swap plays renamed
  have hnew : ofRules drawsThree.rules drawsThree.generator = .ok drawsThree := rfl
  have hswap : Function.Injective swap := (Equiv.swap 0 1).injective
  have hplays : (drawsThree.replay plays).1 =
      [.loadedAt 3, .done, .refused (.duplicateProgram 0), .done, .ended (.winner 0)] := by decide +kernel
  have hfaults : (drawsThree.after plays).faults = [⟨2, 1, .ownershipMismatch 4 (some 0) 1⟩] := by decide +kernel
  have hrenamed : List.Forall₂ (Request.Renamed swap) plays renamed :=
    .cons (.load 0 0 7 (.cons ⟨rfl, rfl, rfl⟩ .nil)) (.cons (.loadAt 1 0 8 4 (.cons ⟨rfl, rfl, rfl⟩ .nil))
      (.cons (.loadAt 0 0 9 6 (.cons ⟨rfl, rfl, rfl⟩ .nil)) (.cons .start (.cons (.run 9) .nil))))
  obtain ⟨hreplies, hbattles⟩ := renaming_law hnew hswap hrenamed
  refine ⟨hnew, hswap, hrenamed, hplays, hfaults, ?_, ?_⟩
  · rw [hreplies, hplays]
    decide
  · rw [show drawsThree.after renamed = drawsThree.after (renamed.take 5) from rfl, (hbattles 5).faults,
      show plays.take 5 = plays from rfl, hfaults]
    decide

end Battle

end CoreWar
