/-
Provenance: where the cells of a core come from.

MOV copies cells anywhere, out of a program's territory or into another's; ADD writes to the fields of any cell, claimed
or not; and a loading can overwrite what stands there. Owner, opcode and modes are never made, though, only copied: they
are a cell's make (`Cell.SameMake`). So every cell has the make of the empty cell or that of a cell in the code of a
loaded program. Not every unowned cell is empty: an addition gives an unclaimed cell fields.

- `effect_store`: what an instruction stores has the make of a cell that stands in the core.
- `Traced`, `move_traced`: the invariant, kept by every move.
- `provenance_law`: the make of every cell, after every sequence of requests to a new battle, and what an instruction
  that passes the ownership check can be.
-/
import CoreWar.Proofs.Conclusion
import CoreWar.Proofs.Instruction
import CoreWar.Proofs.Loadings
import CoreWar.Roster

namespace CoreWar

/-! ## Makes -/

/-- the two cells differ at most in their fields -/
structure Cell.SameMake (c d : Cell) : Prop where
  op : c.op = d.op
  owner : c.owner = d.owner
  aMode : c.a.mode = d.a.mode
  bMode : c.b.mode = d.b.mode

theorem Cell.SameMake.refl (c : Cell) : c.SameMake c := ⟨rfl, rfl, rfl, rfl⟩

theorem Cell.SameMake.trans {c d e : Cell} (h₁ : c.SameMake d) (h₂ : d.SameMake e) : c.SameMake e :=
  ⟨h₁.op.trans h₂.op, h₁.owner.trans h₂.owner, h₁.aMode.trans h₂.aMode, h₁.bMode.trans h₂.bMode⟩

theorem Cell.SameMake.setFields (fields : Int64 × Int64) (c : Cell) : (c.setFields fields).SameMake c :=
  ⟨rfl, rfl, rfl, rfl⟩

namespace Core

/-- after cells were written, a cell is one of them or what it was -/
theorem read_writeFrom_cases (core : Core) (h : 0 < core.size) (start : Int) (code : List Cell) (a : Int) :
    (core.writeFrom start code).read a = core.read a ∨ (core.writeFrom start code).read a ∈ code := by
  induction code generalizing core start with
  | nil => exact Or.inl rfl
  | cons c rest ih =>
    rcases ih (core.write start c) (by simpa using h) (start + 1) with hold | hnew
    · rw [writeFrom, hold, core.read_write h]
      split
      · exact Or.inr List.mem_cons_self
      · exact Or.inl rfl
    · exact Or.inr (List.mem_cons_of_mem c hnew)

/-- the cells of a core are what can be read in it -/
theorem exists_read_eq {core : Core} {c : Cell} (h : c ∈ core.cells) : ∃ a, core.read a = c := by
  obtain ⟨i, hi, rfl⟩ := Array.mem_iff_getElem.1 h
  have hindex : core.index i = i := by
    have hlt : (i : Int) < core.size := by
      have : core.size = core.cells.size := rfl
      omega
    rw [index, Int.emod_eq_of_lt (by omega) hlt, Int.toNat_natCast]
  exact ⟨i, by simp [read, hindex, hi]⟩

/-- what an instruction stores is a cell of the core, but for its fields -/
theorem sameMake_of_effect_store {core : Core} {rules : Rules} {w : Warrior} {pointer address : Int64} {c : Cell}
    (h : core.effect rules w pointer = .ok (.store address c)) : ∃ a, c.SameMake (core.read a) := by
  rcases effect_store h with ⟨-, a, rfl⟩ | ⟨-, fields, rfl⟩
  · exact ⟨a, .refl _⟩
  · exact ⟨address.toInt, .setFields fields _⟩

end Core

namespace Battle

variable {G : Type}

/-! ## The invariant -/

/-- every cell has the make of the empty cell, or of a cell in the code of a loaded program -/
structure Traced (b : Battle G) : Prop where
  size_pos : 0 < b.core.size
  origin : ∀ a, (b.core.read a).SameMake Cell.empty ∨
    ∃ stamp ∈ b.stamps, ∃ t ∈ stamp.2, (b.core.read a).SameMake t

theorem traced_ofRules {rules : Rules} {g : G} {b : Battle G} (h : ofRules rules g = .ok b) : Traced b := by
  obtain ⟨hsize, rfl⟩ := ofRules_ok h
  refine ⟨by simpa using hsize, fun a => Or.inl ?_⟩
  rw [Core.read_blank]
  exact .refl _

/-- a turn copies makes, and invents none -/
theorem read_coreAfter {b : Battle G} (h : 0 < b.core.size) (w : Warrior) (a : Int) :
    ∃ x, ((b.coreAfter w).read a).SameMake (b.core.read x) := by
  rcases coreAfter_cases b w with hsame | ⟨address, c, heffect, hstore⟩
  · rw [hsame]
    exact ⟨a, .refl _⟩
  · rw [hstore, b.core.read_write h]
    split
    · exact Core.sameMake_of_effect_store heffect
    · exact ⟨a, .refl _⟩

theorem move_traced {b b' : Battle G} (hmove : Move b b') (h : Traced b) : Traced b' := by
  cases hmove with
  | noted generator log => exact ⟨h.size_pos, h.origin⟩
  | placed id process code start hload hfree hstart =>
    refine ⟨by simpa [place] using h.size_pos, fun a => ?_⟩
    rw [stamps_place]
    rcases b.core.read_writeFrom_cases h.size_pos start (code.map (Cell.ownedBy id process)) a with hold | hnew
    · rcases h.origin a with hempty | ⟨stamp, hstamp, t, ht, hmake⟩
      · left
        exact hold ▸ hempty
      · right
        exact ⟨stamp, List.mem_append_left _ hstamp, t, ht, hold ▸ hmake⟩
    · right
      exact ⟨_, List.mem_append_right _ (List.mem_singleton_self _), _, hnew, .refl _⟩
  | opened hloaded => exact ⟨h.size_pos, h.origin⟩
  | turned hturn hopen hnext =>
    rename_i turn w i
    refine ⟨?_, fun a => ?_⟩
    · rw [conclude_core, takeTurn_core, size_coreAfter]
      exact h.size_pos
    · obtain ⟨x, hx⟩ := read_coreAfter h.size_pos w a
      rw [stamps_conclude, stamps_takeTurn (nextLive?_eq_some hnext).1, conclude_core, takeTurn_core]
      rcases h.origin x with hempty | ⟨stamp, hstamp, t, ht, hmake⟩
      · exact Or.inl (hx.trans hempty)
      · exact Or.inr ⟨stamp, hstamp, t, ht, hx.trans hmake⟩
  | stalled hturn hopen hnext => exact ⟨h.size_pos, h.origin⟩

/-- ids that all differ tell warriors apart -/
theorem DistinctIds.eq_of_id {b : Battle G} (h : b.DistinctIds) {w v : Warrior} (hw : w ∈ b.warriors)
    (hv : v ∈ b.warriors) (hid : w.id = v.id) : w = v :=
  List.inj_on_of_nodup_map h hw hv hid

/-! ## Main result -/

variable [WordSource G]

theorem traced_after {rules : Rules} {g : G} {b₀ : Battle G} (h₀ : ofRules rules g = .ok b₀)
    (requests : List Request) : Traced (b₀.after requests) :=
  (replay_moves b₀ requests).preserves (P := Traced) (fun _ _ => move_traced) (traced_ofRules h₀)

/-- a cell has the make of the empty cell, or of a stamped cell of the code that its owner was loaded with -/
theorem cell_origin {rules : Rules} {g : G} {b₀ : Battle G} (h₀ : ofRules rules g = .ok b₀) (requests : List Request)
    (a : Int) :
    ((b₀.after requests).core.read a).SameMake Cell.empty ∨
      ∃ w ∈ (b₀.after requests).warriors, ∃ l ∈ b₀.loaded requests, w.stamp = l.stamp ∧
        ∃ d ∈ l.code, ((b₀.after requests).core.read a).SameMake (d.ownedBy l.id l.process) := by
  rcases (traced_after h₀ requests).origin a with hempty | ⟨stamp, hstamp, t, ht, hmake⟩
  · exact Or.inl hempty
  · obtain ⟨w, hw, rfl⟩ := List.mem_map.1 hstamp
    rw [stamps_after_new h₀] at hstamp
    obtain ⟨l, hl, hlw⟩ := List.mem_map.1 hstamp
    rw [← hlw] at ht
    obtain ⟨d, hd, rfl⟩ := List.mem_map.1 ht
    exact Or.inr ⟨w, hw, l, hl, hlw.symm, d, hd, hmake⟩

/-- **Provenance.** After any sequence of requests to a new battle:
- no two loaded programs have an id in common;
- a cell is unowned, a NOP and without modes, or it is owned by a warrior, under the process number that warrior's
  program was loaded with, and has the opcode and the modes of a cell of that warrior's code with the same owner;
- an instruction that gets past the ownership check has the opcode and the modes of an instruction that its own
  program was loaded with. -/
theorem provenance_law {rules : Rules} {g : G} {b₀ : Battle G} (h₀ : ofRules rules g = .ok b₀)
    (requests : List Request) :
    let b := b₀.after requests
    ((b₀.loaded requests).map (·.id)).Nodup ∧
    (∀ c ∈ b.core.cells,
      (c.owner = none ∧ c.op = .nop ∧ c.a.mode = none ∧ c.b.mode = none) ∨
      ∃ w ∈ b.warriors, ∃ l ∈ b₀.loaded requests, l.id = w.id ∧ w.code = l.stamped ∧
        c.owner = some ⟨w.id, l.process⟩ ∧
        ∃ t ∈ w.code, t.owner = c.owner ∧ t.op = c.op ∧ t.a.mode = c.a.mode ∧ t.b.mode = c.b.mode) ∧
    ∀ w ∈ b.warriors,
      (∀ address owner, b.core.effect b.rules w.next.2 w.next.1 ≠ .error (.ownershipMismatch address owner w.id)) →
      let c := b.core.read w.next.1.toInt
      ∃ l ∈ b₀.loaded requests, l.id = w.id ∧ w.code = l.stamped ∧
        ∃ t ∈ l.code, t.op = c.op ∧ t.a.mode = c.a.mode ∧ t.b.mode = c.b.mode := by
  intro b
  have hdistinct : b.DistinctIds := (standing_after h₀ requests).distinct
  refine ⟨?_, ?_, ?_⟩
  · have hids : (b₀.loaded requests).map (·.id) = b.warriors.map (·.id) := by
      have hstamps := congrArg (List.map (·.1)) (stamps_after_new h₀ requests)
      simpa [stamps, Warrior.stamp, Loading.stamp, Function.comp_def] using hstamps.symm
    rw [hids]
    exact hdistinct
  · intro c hc
    obtain ⟨a, rfl⟩ := Core.exists_read_eq hc
    rcases cell_origin h₀ requests a with hempty | ⟨w, hw, l, hl, hstamp, d, hd, hmake⟩
    · exact Or.inl ⟨hempty.owner, hempty.op, hempty.aMode, hempty.bMode⟩
    · have hid : w.id = l.id := congrArg Prod.fst hstamp
      have hcode : w.code = l.stamped := congrArg Prod.snd hstamp
      refine Or.inr ⟨w, hw, l, hl, hid.symm, hcode, ?_, d.ownedBy l.id l.process, ?_, hmake.owner.symm,
        hmake.op.symm, hmake.aMode.symm, hmake.bMode.symm⟩
      · rw [hid, hmake.owner]
        rfl
      · rw [hcode]
        exact List.mem_map_of_mem hd
  · intro w hw hpass
    have howner := Core.owner_of_effect hpass
    rcases cell_origin h₀ requests w.next.1.toInt with hempty | ⟨v, hv, l, hl, hstamp, d, hd, hmake⟩
    · rw [Cell.ownerProgram, hempty.owner] at howner
      cases howner
    · -- the owner is the warrior itself, since it has the owner's id
      have hid : l.id = w.id := by
        rw [Cell.ownerProgram, hmake.owner] at howner
        exact Option.some.inj howner
      have hvw : v = w := hdistinct.eq_of_id hv hw ((congrArg Prod.fst hstamp).trans hid)
      subst hvw
      exact ⟨l, hl, hid, congrArg Prod.snd hstamp, d, hd, hmake.op.symm, hmake.aMode.symm, hmake.bMode.symm⟩

/-- a dwarf, loaded as process 7, beside a program that jumps on the spot, in a core of ten cells -/
def dwarfAtWork : Battle Random.Counter :=
  { rules := { coreSize := 10 }, core := .blank 10, generator := ⟨0, 1⟩ }

/-- after three turns of each, the bomb that the dwarf dropped at 7 is a cell of its code, and the next instructions are
of the code of their programs -/
theorem provenance_law_dwarf :
    let requests : List Request := [.loadAt 0 7 Roster.dwarf 0, .loadAt 1 0 [Cell.jmp 0] 5, .start, .run 6]
    let b := dwarfAtWork.after requests
    let bomb : Cell := { op := .dat, a := ⟨0, some .immediate⟩, b := ⟨4, some .immediate⟩, owner := some ⟨0, 7⟩ }
    ofRules dwarfAtWork.rules dwarfAtWork.generator = .ok dwarfAtWork ∧ b.core.cells[7]? = some bomb ∧
      (∃ w ∈ b.warriors, ∃ l ∈ dwarfAtWork.loaded requests, l.id = w.id ∧ w.code = l.stamped ∧
        bomb.owner = some ⟨w.id, l.process⟩ ∧ ∃ t ∈ w.code, t.owner = bomb.owner ∧ t.op = bomb.op ∧
          t.a.mode = bomb.a.mode ∧ t.b.mode = bomb.b.mode) ∧
      (∀ w ∈ b.warriors, (b.core.effect b.rules w.next.2 w.next.1).isOk = true) ∧
      ∀ w ∈ b.warriors, ∃ l ∈ dwarfAtWork.loaded requests, l.id = w.id ∧ w.code = l.stamped ∧
        ∃ t ∈ l.code, t.op = (b.core.read w.next.1.toInt).op ∧ t.a.mode = (b.core.read w.next.1.toInt).a.mode ∧
          t.b.mode = (b.core.read w.next.1.toInt).b.mode := by
  intro requests b bomb
  have hnew : ofRules dwarfAtWork.rules dwarfAtWork.generator = .ok dwarfAtWork := rfl
  have hbomb : b.core.cells[7]? = some bomb := by decide +kernel
  have hpass : ∀ w ∈ b.warriors, (b.core.effect b.rules w.next.2 w.next.1).isOk = true := by decide +kernel
  obtain ⟨-, hcells, hnext⟩ := provenance_law hnew requests
  refine ⟨hnew, hbomb, ?_, hpass, ?_⟩
  · rcases hcells bomb (Array.mem_of_getElem? hbomb) with ⟨hnone, -⟩ | hcell
    · cases hnone
    · exact hcell
  · intro w hw
    refine hnext w hw ?_
    intro address owner hfault
    have hok := hpass w hw
    rw [hfault] at hok
    cases hok

/-- the invariant cannot be that what is not empty has an owner: an addition gives an unclaimed cell a field -/
example : (dwarfAtWork.after [.loadAt 0 0 [{ op := .add, a := ⟨1, some .immediate⟩, b := ⟨1, some .direct⟩ }] 0, .start,
    .step]).core.read 1 = { b := ⟨1, none⟩ } := by
  decide +kernel

end Battle

end CoreWar
