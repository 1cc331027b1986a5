/-
Likeness: two cores with the same cells, in other places and under other names.

Nothing in an instruction depends on where in the core it stands, or on who owns it, as long as both are what they were
relative to each other: an operand is a distance, an owner is only compared. A `Likeness` says by how much the second
core is ahead on the circle, how its programs are called, which tags and which pointers count as the same. What it asks
of the pointers is that they name cells so far apart and stay alike when they are moved, as far as sums are concerned
that do not do harm by wrapping around (`Fits`).

The relations go up from there, one for each kind of thing: `Cells`, `Cores`, `Rotations`, `Warriors`, `Effects`.

- `Cores.write`, `Cores.writeFrom`, `Cores.firstOccupied?`: what is done alike to alike cores leaves them alike.
- `Rotations.next`: alike rotations hand out alike pointers.
- `effect_results`: alike warriors do the same in alike cores, or are at fault for the same reason.
-/
import Mathlib.Data.List.Forall2
import CoreWar.Proofs.Circle
import CoreWar.Proofs.Simulation

namespace CoreWar

/-! ## Other names and places -/

/-- the fault with its programs called otherwise, and its address elsewhere -/
def Fault.map (rename : ProgramId → ProgramId) (move : Int → Int) : Fault → Fault
  | .ownershipMismatch address owner executor => .ownershipMismatch (move address) (owner.map rename) (rename executor)
  | .missingMode address side => .missingMode (move address) side

def FaultRecord.map (rename : ProgramId → ProgramId) (move : Int → Int) (r : FaultRecord) : FaultRecord :=
  { r with program := rename r.program, fault := r.fault.map rename move }

/-- what two cores of one size may differ in and still be played alike -/
structure Likeness (size : Nat) where
  /-- how far the second core is ahead -/
  shift : Int
  /-- what a place of the first is in the second -/
  move : Int → Int
  /-- what a program of the first is called in the second -/
  rename : ProgramId → ProgramId
  Owners : Owner → Owner → Prop
  Pointers : Int64 → Int64 → Prop
  /-- the sum of pointer and distance may be taken -/
  Fits : Int64 × Int64 → Prop
  /-- a program may start at the place -/
  Starts : Nat → Prop
  /-- places are drawn at random, the same ones for both -/
  Draws : Prop
  size_pos : 0 < size
  move_emod : ∀ {x x' : Int}, x' % size = (x + shift) % size → x' % size = move (x % size)
  rename_injective : Function.Injective rename
  owners_program : ∀ {o o' : Owner}, Owners o o' → o'.program = rename o.program
  pointers_address : ∀ {p p' : Int64}, Pointers p p' → p'.toInt % size = (p.toInt + shift) % size
  pointers_add : ∀ {p p' : Int64} (d : Int64), Pointers p p' → Fits (p, d) → Fits (p', d) → Pointers (p + d) (p' + d)
  pointers_start : ∀ {s s' : Nat}, (s' : Int) % size = (s + shift) % size → Starts s → Starts s' →
    Pointers (.ofNat s) (.ofNat s')
  shift_of_draws : Draws → shift = 0

namespace Likeness

variable {size : Nat} (L : Likeness size)

/-- the addresses name cells as far apart as the cores are -/
def Addresses (x x' : Int) : Prop := x' % size = (x + L.shift) % size

structure Cells (c c' : Cell) : Prop where
  op : c'.op = c.op
  a : c'.a = c.a
  b : c'.b = c.b
  owner : Option.Rel L.Owners c.owner c'.owner

structure Cores (core core' : Core) : Prop where
  size_left : core.size = size
  size_right : core'.size = size
  read : ∀ {x x' : Int}, L.Addresses x x' → L.Cells (core.read x) (core'.read x')

structure Rotations (r r' : Rotation) : Prop where
  latest : L.Pointers r.latest r'.latest
  earlier : List.Forall₂ L.Pointers r.earlier r'.earlier
  later : List.Forall₂ L.Pointers r.later r'.later
  wrapped : r'.wrapped = r.wrapped

structure Warriors (w w' : Warrior) : Prop where
  id : w'.id = L.rename w.id
  code : List.Forall₂ L.Cells w.code w'.code
  rotation : L.Rotations w.rotation w'.rotation
  alive : w'.alive = w.alive

structure Targets (t t' : Target) : Prop where
  address : L.Pointers t.address t'.address
  immediate : t'.immediate = t.immediate

inductive Effects : Effect → Effect → Prop where
  | idle : Effects .idle .idle
  | die : Effects .die .die
  | jump {target target' : Int64} (htarget : L.Pointers target target') : Effects (.jump target) (.jump target')
  | store {address address' : Int64} {c c' : Cell} (haddress : L.Pointers address address') (hcell : L.Cells c c') :
    Effects (.store address c) (.store address' c')
  | split {start start' : Int64} (hstart : L.Pointers start start') : Effects (.split start) (.split start')

inductive Results : Except Fault Effect → Except Fault Effect → Prop where
  | ok {effect effect' : Effect} (h : L.Effects effect effect') : Results (.ok effect) (.ok effect')
  | error (fault : Fault) : Results (.error fault) (.error (fault.map L.rename L.move))

variable {L}

/-! ## Addresses and cells -/

theorem Addresses.add {x x' : Int} (h : L.Addresses x x') (d : Int) : L.Addresses (x + d) (x' + d) := by
  unfold Addresses at h ⊢
  rw [Int.add_right_comm, ← Int.emod_add_emod x' size d, h, Int.emod_add_emod]

/-- cores that stand at the same place have the same addresses -/
theorem Addresses.refl (h : L.shift = 0) (x : Int) : L.Addresses x x := by
  rw [Addresses, h, Int.add_zero]

theorem Addresses.eq {x x' : Nat} (h : L.Addresses x x') (hshift : L.shift = 0) (hx : x < size) (hx' : x' < size) :
    x' = x := by
  unfold Addresses at h
  rw [hshift, Int.add_zero, Int.emod_eq_of_lt (by omega) (by omega), Int.emod_eq_of_lt (by omega) (by omega)] at h
  exact Int.ofNat.inj h

theorem move_natCast (h : L.shift = 0) {x : Nat} (hx : x < size) : L.move x = x := by
  have hmove := L.move_emod (Addresses.refl h x)
  rw [Int.emod_eq_of_lt (by omega) (by omega)] at hmove
  exact hmove.symm

theorem Addresses.emod_eq_iff {x x' y y' : Int} (hx : L.Addresses x x') (hy : L.Addresses y y') :
    x' % size = y' % size ↔ x % size = y % size := by
  unfold Addresses at hx hy
  rw [hx, hy, Int.emod_add_cancel_right]

namespace Cells

variable {c c' : Cell} (h : L.Cells c c')

theorem empty : L.Cells Cell.empty Cell.empty := ⟨rfl, rfl, rfl, .none⟩

include h

theorem operand (side : Side) : c'.operand side = c.operand side := by
  cases side with
  | a => exact h.a
  | b => exact h.b

theorem fields : c'.fields = c.fields := by rw [Cell.fields, Cell.fields, h.a, h.b]

theorem ownerProgram : c'.ownerProgram = c.ownerProgram.map L.rename := by
  have howner := h.owner
  unfold Cell.ownerProgram
  generalize c.owner = owner, c'.owner = owner' at howner
  cases howner with
  | none => rfl
  | some hown => exact congrArg some (L.owners_program hown)

/-- the owner is compared, and nothing else is made of it -/
theorem ownerProgram_eq_iff (id : ProgramId) :
    c'.ownerProgram = some (L.rename id) ↔ c.ownerProgram = some id := by
  rw [h.ownerProgram, ← Option.map_some]
  exact (Option.map_injective L.rename_injective).eq_iff

theorem isEmpty : c'.isEmpty = c.isEmpty := by
  rw [Bool.eq_iff_iff, Cell.isEmpty_iff, Cell.isEmpty_iff]
  obtain ⟨op, a, b, owner⟩ := c
  obtain ⟨op', a', b', owner'⟩ := c'
  obtain ⟨rfl, rfl, rfl, howner⟩ := h
  cases howner with
  | none => rfl
  | some hown => simp [Cell.empty]

theorem setFields (fields : Int64 × Int64) : L.Cells (c.setFields fields) (c'.setFields fields) :=
  ⟨h.op, by rw [Cell.setFields, Cell.setFields, h.a], by rw [Cell.setFields, Cell.setFields, h.b], h.owner⟩

end Cells

/-! ## Cores -/

namespace Cores

variable {core core' : Core}

theorem blank : L.Cores (.blank size) (.blank size) where
  size_left := Core.size_blank size
  size_right := Core.size_blank size
  read _ := by
    rw [Core.read_blank, Core.read_blank]
    exact .empty

variable (h : L.Cores core core')
include h

theorem size_eq : core'.size = core.size := h.size_right.trans h.size_left.symm

theorem pos_left : 0 < core.size := h.size_left ▸ L.size_pos

theorem pos_right : 0 < core'.size := h.size_right ▸ L.size_pos

theorem index {x x' : Int} (hx : L.Addresses x x') : (core'.index x' : Int) = L.move (core.index x) := by
  rw [Core.natCast_index core' h.pos_right, Core.natCast_index core h.pos_left, h.size_left, h.size_right]
  exact L.move_emod hx

/-- the places that addresses are reduced to are again as far apart -/
theorem index_addresses {x x' : Int} (hx : L.Addresses x x') : L.Addresses (core.index x) (core'.index x') := by
  unfold Addresses at hx ⊢
  rw [Core.natCast_index core' h.pos_right, Core.natCast_index core h.pos_left, h.size_left, h.size_right,
    Int.emod_emod, Int.emod_add_emod, hx]

theorem index_eq_iff {x x' y y' : Int} (hx : L.Addresses x x') (hy : L.Addresses y y') :
    core'.index x' = core'.index y' ↔ core.index x = core.index y := by
  rw [core'.index_eq_index_iff h.pos_right, core.index_eq_index_iff h.pos_left, h.size_left, h.size_right]
  exact hx.emod_eq_iff hy

theorem isOccupied {x x' : Int} (hx : L.Addresses x x') : core'.isOccupied x' = core.isOccupied x := by
  rw [Core.isOccupied, Core.isOccupied, (h.read hx).isEmpty]

theorem write {x x' : Int} {c c' : Cell} (hx : L.Addresses x x') (hc : L.Cells c c') :
    L.Cores (core.write x c) (core'.write x' c') where
  size_left := by rw [Core.size_write, h.size_left]
  size_right := by rw [Core.size_write, h.size_right]
  read {y y'} hy := by
    rw [core.read_write h.pos_left, core'.read_write h.pos_right]
    by_cases hsame : core.index x = core.index y
    · rw [if_pos hsame, if_pos ((h.index_eq_iff hx hy).2 hsame)]
      exact hc
    · rw [if_neg hsame, if_neg fun heq => hsame ((h.index_eq_iff hx hy).1 heq)]
      exact h.read hy

omit h in
theorem writeFrom {core core' : Core} (h : L.Cores core core') {code code' : List Cell}
    (hcode : List.Forall₂ L.Cells code code') {x x' : Int} (hx : L.Addresses x x') :
    L.Cores (core.writeFrom x code) (core'.writeFrom x' code') := by
  induction hcode generalizing core core' x x' with
  | nil => exact h
  | cons hcell _ ih => exact ih (h.write hx hcell) (hx.add 1)

/-- a search of alike rows comes to the same, if the same cells must be free -/
theorem firstOccupied? {placement : Placement} {start start' : Nat} (hstart : L.Addresses start start')
    (hchecks : ∀ i, placement.checks core'.size (start' + i) = placement.checks core.size (start + i)) (length : Nat) :
    Option.Rel (fun place place' : Nat => (place' : Int) = L.move place)
      (core.firstOccupied? placement start length) (core'.firstOccupied? placement start' length) := by
  induction length generalizing start start' with
  | zero => exact .none
  | succ length ih =>
    have hfirst : (placement.checks core'.size start' && core'.isOccupied start') =
        (placement.checks core.size start && core.isOccupied start) := by
      have hcheck : placement.checks core'.size start' = placement.checks core.size start := hchecks 0
      rw [h.isOccupied hstart, hcheck]
    have hrest : ∀ i, placement.checks core'.size (start' + 1 + i) = placement.checks core.size (start + 1 + i) := by
      intro i
      rw [Nat.add_assoc, Nat.add_assoc]
      exact hchecks (1 + i)
    rw [Core.firstOccupied?, Core.firstOccupied?, hfirst]
    split
    · exact .some (h.index hstart)
    · exact ih (hstart.add 1) hrest

end Cores

/-! ## Rotations -/

theorem rewind_alike {p p' : Int64} {later later' earlier earlier' : List Int64} (hp : L.Pointers p p')
    (hlater : List.Forall₂ L.Pointers later later') (hearlier : List.Forall₂ L.Pointers earlier earlier') :
    L.Pointers (Rotation.rewind p later earlier).1 (Rotation.rewind p' later' earlier').1 ∧
      List.Forall₂ L.Pointers (Rotation.rewind p later earlier).2 (Rotation.rewind p' later' earlier').2 := by
  induction hearlier generalizing p p' later later' with
  | nil => exact ⟨hp, hlater⟩
  | cons hq _ ih => exact ih hq (.cons hp hlater)

theorem isEmpty_alike {α β : Type} {R : α → β → Prop} {xs : List α} {ys : List β} (h : List.Forall₂ R xs ys) :
    ys.isEmpty = xs.isEmpty := by
  cases h <;> rfl

namespace Rotations

variable {r r' : Rotation}

theorem single {p p' : Int64} (h : L.Pointers p p') : L.Rotations (.single p) (.single p') := ⟨h, .nil, .nil, rfl⟩

variable (h : L.Rotations r r')
include h

theorem size_eq : r'.size = r.size := by
  rw [r'.size_eq, r.size_eq, h.earlier.length_eq, h.later.length_eq]

theorem processes : List.Forall₂ L.Pointers r.processes r'.processes :=
  List.rel_append (List.rel_reverse h.earlier) (.cons h.latest h.later)

/-- alike pointers are handed out and, if they can be, moved one further -/
theorem next (hfits : L.Fits (r.next.1, 1)) (hfits' : L.Fits (r'.next.1, 1)) :
    L.Pointers r.next.1 r'.next.1 ∧ L.Rotations r.next.2 r'.next.2 := by
  obtain ⟨latest, earlier, later, wrapped, size, size_eq⟩ := r
  obtain ⟨latest', earlier', later', wrapped', size', size_eq'⟩ := r'
  obtain ⟨hlatest, hearlier, hlater, hwrapped⟩ := h
  simp only at hlatest hearlier hlater hwrapped
  subst hwrapped
  -- the front of the row, for when the turn goes back to it
  obtain ⟨hfront, hbehind⟩ := rewind_alike hlatest hlater hearlier
  cases wrapped' with
  | true =>
    simp only [Rotation.next] at hfits hfits' ⊢
    exact ⟨hfront, L.pointers_add 1 hfront hfits hfits', .nil, hbehind, isEmpty_alike hbehind⟩
  | false =>
    cases hlater with
    | nil =>
      simp only [Rotation.next] at hfits hfits' ⊢
      exact ⟨hfront, L.pointers_add 1 hfront hfits hfits', .nil, hbehind, isEmpty_alike hbehind⟩
    | cons hp hrest =>
      simp only [Rotation.next] at hfits hfits' ⊢
      exact ⟨hp, L.pointers_add 1 hp hfits hfits', .cons hlatest hearlier, hrest, isEmpty_alike hrest⟩

theorem jump {target target' : Int64} (htarget : L.Pointers target target') :
    L.Rotations (r.jump target) (r'.jump target') :=
  ⟨htarget, h.earlier, h.later, h.wrapped⟩

theorem split {start start' : Int64} (hstart : L.Pointers start start') :
    L.Rotations (r.split start) (r'.split start') :=
  ⟨h.latest, h.earlier, .cons hstart h.later, h.wrapped⟩

end Rotations

/-! ## Warriors -/

namespace Warriors

variable {w w' : Warrior} (h : L.Warriors w w')
include h

theorem next (hfits : L.Fits (w.next.1, 1)) (hfits' : L.Fits (w'.next.1, 1)) :
    L.Pointers w.next.1 w'.next.1 ∧ L.Warriors w.next.2 w'.next.2 := by
  obtain ⟨hpointer, hrotation⟩ := h.rotation.next hfits hfits'
  exact ⟨hpointer, h.id, h.code, hrotation, h.alive⟩

theorem kill : L.Warriors w.kill w'.kill := ⟨h.id, h.code, h.rotation, rfl⟩

theorem onWarrior {effect effect' : Effect} (heffect : L.Effects effect effect') :
    L.Warriors (effect.onWarrior w) (effect'.onWarrior w') := by
  cases heffect with
  | idle => exact h
  | die => exact h.kill
  | jump htarget => exact ⟨h.id, h.code, h.rotation.jump htarget, h.alive⟩
  | store _ _ => exact h
  | split hstart => exact ⟨h.id, h.code, h.rotation.split hstart, h.alive⟩

end Warriors

theorem Cores.onCore {core core' : Core} (h : L.Cores core core') {effect effect' : Effect}
    (heffect : L.Effects effect effect') : L.Cores (effect.onCore core) (effect'.onCore core') := by
  cases heffect with
  | idle => exact h
  | die => exact h
  | jump _ => exact h
  | store haddress hcell => exact h.write (L.pointers_address haddress) hcell
  | split _ => exact h

/-! ## Instructions -/

section

variable {core core' : Core} (h : L.Cores core core')
include h

theorem resolve_alike {base base' : Int64} {c c' : Cell} {side : Side} (hbase : L.Pointers base base')
    (hcell : L.Cells c c') (hfits : ∀ p ∈ core.operandSums base c side, L.Fits p)
    (hfits' : ∀ p ∈ core'.operandSums base' c' side, L.Fits p) {target : Target}
    (htarget : core.resolve base c side = .ok target) :
    ∃ target', core'.resolve base' c' side = .ok target' ∧ L.Targets target target' := by
  have hsame := hcell.operand side
  rcases hoperand : c.operand side with ⟨field, _ | mode⟩
  · simp [Core.resolve, hoperand] at htarget
  · rw [hoperand] at hsame
    simp only [Core.operandSums, hoperand] at hfits
    simp only [Core.operandSums, hsame] at hfits'
    simp only [Core.resolve, hoperand] at htarget
    simp only [Core.resolve, hsame]
    cases mode with
    | immediate =>
      cases htarget
      exact ⟨_, rfl, hbase, rfl⟩
    | direct =>
      cases htarget
      have hpointer := L.pointers_add field hbase (hfits _ List.mem_cons_self) (hfits' _ List.mem_cons_self)
      exact ⟨_, rfl, hpointer, rfl⟩
    | aIndirect | bIndirect =>
      cases htarget
      have hpointer := L.pointers_add field hbase (hfits _ List.mem_cons_self) (hfits' _ List.mem_cons_self)
      have hthrough := h.read (L.pointers_address hpointer)
      have hlast := hfits _ (List.mem_cons_of_mem _ List.mem_cons_self)
      have hlast' := hfits' _ (List.mem_cons_of_mem _ List.mem_cons_self)
      simp only [hthrough.a, hthrough.b] at hlast' ⊢
      exact ⟨_, rfl, L.pointers_add _ hpointer hlast hlast', rfl⟩

theorem targetFields_alike {t t' : Target} (ht : L.Targets t t') : core'.targetFields t' = core.targetFields t := by
  unfold Core.targetFields
  rw [ht.immediate]
  cases t.immediate with
  | some value => rfl
  | none => exact (h.read (L.pointers_address ht.address)).fields

section

variable {rules : Rules} {w w' : Warrior} (hw : L.Warriors w w') {pointer pointer' : Int64}
  (hpointer : L.Pointers pointer pointer')
include hw hpointer

theorem owner_alike (howner : (core.read pointer.toInt).ownerProgram = some w.id) :
    (core'.read pointer'.toInt).ownerProgram = some w'.id := by
  rw [hw.id]
  exact ((h.read (L.pointers_address hpointer)).ownerProgram_eq_iff w.id).2 howner

variable (hfits : ∀ p ∈ core.sums rules w.id pointer, L.Fits p)
  (hfits' : ∀ p ∈ core'.sums rules w'.id pointer', L.Fits p)
include hfits hfits'

theorem resolve_a_alike (howner : (core.read pointer.toInt).ownerProgram = some w.id)
    (hop : (core.read pointer.toInt).op = .mov ∨ (core.read pointer.toInt).op = .add ∨
      (core.read pointer.toInt).op = .spl ∧ rules.splitProcesses = true) {target : Target}
    (htarget : core.resolve pointer (core.read pointer.toInt) .a = .ok target) :
    ∃ target', core'.resolve pointer' (core'.read pointer'.toInt) .a = .ok target' ∧ L.Targets target target' := by
  have hcell := h.read (L.pointers_address hpointer)
  have howner' := owner_alike h hw hpointer howner
  apply resolve_alike h hpointer hcell ?_ ?_ htarget
  · exact fun p hp => hfits p (Core.mem_sums_a howner hop hp)
  · exact fun p hp => hfits' p (Core.mem_sums_a howner' (hcell.op ▸ hop) hp)

theorem resolve_b_alike (howner : (core.read pointer.toInt).ownerProgram = some w.id)
    (hop : (core.read pointer.toInt).op = .mov ∨ (core.read pointer.toInt).op = .add) {source target : Target}
    (hsource : core.resolve pointer (core.read pointer.toInt) .a = .ok source)
    (htarget : core.resolve pointer (core.read pointer.toInt) .b = .ok target) :
    ∃ target', core'.resolve pointer' (core'.read pointer'.toInt) .b = .ok target' ∧ L.Targets target target' := by
  have hcell := h.read (L.pointers_address hpointer)
  have howner' := owner_alike h hw hpointer howner
  have hmode := Core.isSome_mode_of_resolve hsource
  have hmode' : (core'.read pointer'.toInt).a.mode.isSome = true := hcell.a ▸ hmode
  apply resolve_alike h hpointer hcell ?_ ?_ htarget
  · exact fun p hp => hfits p (Core.mem_sums_b howner hop hmode hp)
  · exact fun p hp => hfits' p (Core.mem_sums_b howner' (hcell.op ▸ hop) hmode' hp)

/-- the second warrior can go the way that the first goes -/
theorem execution_alike {result : Except Fault Effect}
    (hexec : core.Execution rules w pointer (core.read pointer.toInt) result) :
    ∃ result', core'.Execution rules w' pointer' (core'.read pointer'.toInt) result' ∧ L.Results result result' := by
  have haddress := L.pointers_address hpointer
  have hcell := h.read haddress
  have hindex := h.index haddress
  have hsize : w'.size = w.size := hw.rotation.size_eq
  have hown := owner_alike h hw hpointer
  cases hexec with
  | foreign howner =>
    have hforeign : (core'.read pointer'.toInt).ownerProgram ≠ some w'.id := by
      rw [hw.id]
      exact fun heq => howner ((hcell.ownerProgram_eq_iff w.id).1 heq)
    refine ⟨_, .foreign hforeign, ?_⟩
    rw [hindex, hw.id, hcell.ownerProgram]
    exact .error _
  | modelessA howner hop hmode =>
    refine ⟨_, .modelessA (hown howner) (hcell.op ▸ hop) (hcell.a ▸ hmode), ?_⟩
    rw [hindex]
    exact .error (.missingMode (core.index pointer.toInt) .a)
  | modelessB howner hop ha hmode =>
    refine ⟨_, .modelessB (hown howner) (hcell.op ▸ hop) (hcell.a ▸ ha) (hcell.b ▸ hmode), ?_⟩
    rw [hindex]
    exact .error (.missingMode (core.index pointer.toInt) .b)
  | dat howner hop => exact ⟨_, .dat (hown howner) (hcell.op ▸ hop), .ok .die⟩
  | jmp howner hop =>
    have hop' : (core'.read pointer'.toInt).op = .jmp := hcell.op ▸ hop
    have hsum := hfits (pointer, (core.read pointer.toInt).a.field) (by simp [Core.sums, howner, hop])
    have hsum' := hfits' (pointer', (core'.read pointer'.toInt).a.field) (by simp [Core.sums, hown howner, hop'])
    refine ⟨_, .jmp (hown howner) hop', .ok (.jump ?_)⟩
    rw [hcell.a] at hsum' ⊢
    exact L.pointers_add _ hpointer hsum hsum'
  | mov howner hop hsource htarget =>
    obtain ⟨source', hsource', hs⟩ := resolve_a_alike h hw hpointer hfits hfits' howner (Or.inl hop) hsource
    obtain ⟨target', htarget', ht⟩ := resolve_b_alike h hw hpointer hfits hfits' howner (Or.inl hop) hsource htarget
    refine ⟨_, .mov (hown howner) (hcell.op ▸ hop) hsource' htarget', .ok (.store ht.address ?_)⟩
    exact h.read (L.pointers_address hs.address)
  | add howner hop hsource htarget =>
    obtain ⟨source', hsource', hs⟩ := resolve_a_alike h hw hpointer hfits hfits' howner (Or.inr (Or.inl hop)) hsource
    obtain ⟨target', htarget', ht⟩ := resolve_b_alike h hw hpointer hfits hfits' howner (Or.inr hop) hsource htarget
    refine ⟨_, .add (hown howner) (hcell.op ▸ hop) hsource' htarget', .ok (.store ht.address ?_)⟩
    rw [targetFields_alike h hs, targetFields_alike h ht]
    exact (h.read (L.pointers_address ht.address)).setFields _
  | spl howner hop hon htarget hroom =>
    obtain ⟨target', htarget', ht⟩ :=
      resolve_a_alike h hw hpointer hfits hfits' howner (Or.inr (Or.inr ⟨hop, hon⟩)) htarget
    exact ⟨_, .spl (hown howner) (hcell.op ▸ hop) hon htarget' (hsize ▸ hroom), .ok (.split ht.address)⟩
  | splFull howner hop hon htarget hfull =>
    obtain ⟨target', htarget', -⟩ :=
      resolve_a_alike h hw hpointer hfits hfits' howner (Or.inr (Or.inr ⟨hop, hon⟩)) htarget
    exact ⟨_, .splFull (hown howner) (hcell.op ▸ hop) hon htarget' (hsize ▸ hfull), .ok .idle⟩
  | splOff howner hop hoff => exact ⟨_, .splOff (hown howner) (hcell.op ▸ hop) hoff, .ok .idle⟩
  | nop howner hop => exact ⟨_, .nop (hown howner) (hcell.op ▸ hop), .ok .idle⟩

/-- alike warriors do alike in alike cores, or are at fault for the same reason -/
theorem effect_results : L.Results (core.effect rules w pointer) (core'.effect rules w' pointer') := by
  have hexec := core.effect_execution rules w pointer
  obtain ⟨result', hexec', hresults⟩ := execution_alike h hw hpointer hfits hfits' hexec
  rw [hexec'.effect_eq]
  exact hresults

end

end

end Likeness

end CoreWar
