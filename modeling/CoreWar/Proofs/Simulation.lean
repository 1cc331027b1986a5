/-
Simulation: a battle is carried out alike by every machine that can carry it.

A platform can carry battles in a core of some size (`Carries`) if its pointers name the cells that raw ones name, and
the checks that arise in such battles pass. A machine with its pointers follows a battle if, besides, it makes the same
of each place where a program starts and of each sum that a turn computes (`Follows`). Which sums these are is read off
the battle alone (`Turn.sums`).

The image of a battle on a platform keeps everything but the events, and each pointer as the platform has it. Each
operation of the machine, applied to an image, succeeds and gives the image of what the battle does:

- `Carries.act_image`: executing an instruction; `Carries.step_image`: a step; `Carries.perform_image`: a request.
- `Carries.replay_image`, `Carries.replay_new`: a sequence of requests, with the same replies.
-/
import Mathlib.Data.List.InsertIdx
import CoreWar.Proofs.Frame
import CoreWar.Proofs.Machine

namespace CoreWar

/-! ## Images -/

def Warrior.image {P : Type} (φ : Int64 → P) (w : Warrior) : Group P where
  id := w.id
  code := w.code
  processes := w.processes.map φ
  cursor := w.rotation.cursor
  last := w.rotation.last
  alive := w.alive

theorem Warrior.length_image {P : Type} (φ : Int64 → P) (w : Warrior) : (w.image φ).processes.length = w.size := by
  simp [image, processes, size]

def Effect.image {P : Type} (φ : Int64 → P) : Effect → Act P
  | idle => .idle
  | die => .die
  | jump target => .jump (φ target)
  | store address c => .store (φ address) c
  | split start => .split (φ start)

def Battle.image {G P : Type} (φ : Int64 → P) (b : Battle G) : Machine G P where
  rules := b.rules
  core := b.core
  generator := b.generator
  groups := b.warriors.map (·.image φ)
  turn := b.turn
  steps := b.steps
  concluded := b.concluded
  faults := b.faults

namespace Battle

variable {G P : Type} {φ : Int64 → P}

@[simp] theorem image_rules (b : Battle G) : (b.image φ).rules = b.rules := rfl

@[simp] theorem image_core (b : Battle G) : (b.image φ).core = b.core := rfl

@[simp] theorem image_generator (b : Battle G) : (b.image φ).generator = b.generator := rfl

@[simp] theorem image_turn (b : Battle G) : (b.image φ).turn = b.turn := rfl

@[simp] theorem image_concluded (b : Battle G) : (b.image φ).concluded = b.concluded := rfl

theorem ids_image (b : Battle G) : (b.image φ).groups.map (·.id) = b.warriors.map (·.id) := by
  simp only [image, List.map_map]
  rfl

theorem outcome_image (b : Battle G) : (b.image φ).outcome = b.outcome := by
  have hliving : (b.image φ).groups.filter (·.alive) = b.living.map (·.image φ) := by
    simp only [Battle.image, Battle.living, List.filter_map]
    rfl
  have hempty : (b.image φ).groups.isEmpty = b.warriors.isEmpty := List.isEmpty_map
  rw [Battle.outcome_eq, Machine.outcome, hliving, hempty]
  cases hwarriors : b.warriors with
  | nil => simp [Battle.living, hwarriors]
  | cons v rest => rcases b.living with _ | ⟨w, _ | ⟨u, others⟩⟩ <;> rfl

theorem conclude_image {b : Battle G} : (b.image φ).conclude = (b.conclude.1, b.conclude.2.image φ) := by
  unfold conclude Machine.conclude
  rw [outcome_image]
  cases houtcome : b.outcome with
  | running => simp
  | winner id => simp [emit, image]
  | draw => simp [emit, image]

theorem checkLoadable_image (b : Battle G) (id : ProgramId) (code : List Cell) :
    (b.image φ).checkLoadable id code = b.checkLoadable id code := by
  have hfind : ((b.image φ).groups.find? (·.id == id)).isSome = (b.warrior? id).isSome := by
    simp only [image, List.find?_map, Option.isSome_map, warrior?]
    rfl
  simp only [Machine.checkLoadable, checkLoadable, hfind]
  rfl

end Battle

/-! ## Sums -/

/-- the sums by which an operand of `c`, which executes at `base`, is resolved -/
def Core.operandSums (core : Core) (base : Int64) (c : Cell) (side : Side) : List (Int64 × Int64) :=
  let operand := c.operand side
  let pointer := base + operand.field
  match operand.mode with
  | none | some .immediate => []
  | some .direct => [(base, operand.field)]
  | some .aIndirect => [(base, operand.field), (pointer, (core.read pointer.toInt).a.field)]
  | some .bIndirect => [(base, operand.field), (pointer, (core.read pointer.toInt).b.field)]

theorem Core.isSome_mode_of_resolve {core : Core} {base : Int64} {c : Cell} {side : Side} {target : Target}
    (h : core.resolve base c side = .ok target) : (c.operand side).mode.isSome = true := by
  cases hmode : (c.operand side).mode with
  | none => simp [Core.resolve, hmode] at h
  | some mode => rfl

/-- the sums by which the cell at `pointer` computes addresses when the program executes it -/
def Core.sums (core : Core) (rules : Rules) (id : ProgramId) (pointer : Int64) : List (Int64 × Int64) :=
  let c := core.read pointer.toInt
  if c.ownerProgram ≠ some id then []
  else match c.op with
    | .dat | .nop => []
    | .jmp => [(pointer, c.a.field)]
    | .add | .mov =>
      -- the B operand is not looked at when the A operand is at fault
      core.operandSums pointer c .a ++ if c.a.mode.isSome then core.operandSums pointer c .b else []
    | .spl => if rules.splitProcesses then core.operandSums pointer c .a else []

/-- the sums of the A operand are computed by MOV, ADD and an SPL that may split -/
theorem Core.mem_sums_a {core : Core} {rules : Rules} {id : ProgramId} {pointer : Int64} {p : Int64 × Int64}
    (howner : (core.read pointer.toInt).ownerProgram = some id)
    (hop : (core.read pointer.toInt).op = .mov ∨ (core.read pointer.toInt).op = .add ∨
      (core.read pointer.toInt).op = .spl ∧ rules.splitProcesses = true)
    (hp : p ∈ core.operandSums pointer (core.read pointer.toInt) .a) : p ∈ core.sums rules id pointer := by
  rcases hop with hop | hop | ⟨hop, hon⟩
  · simp [sums, howner, hop, hp]
  · simp [sums, howner, hop, hp]
  · simp [sums, howner, hop, hon, hp]

/-- the sums of the B operand are computed by MOV and ADD, once A is resolved -/
theorem Core.mem_sums_b {core : Core} {rules : Rules} {id : ProgramId} {pointer : Int64} {p : Int64 × Int64}
    (howner : (core.read pointer.toInt).ownerProgram = some id)
    (hop : (core.read pointer.toInt).op = .mov ∨ (core.read pointer.toInt).op = .add)
    (hmode : (core.read pointer.toInt).a.mode.isSome = true)
    (hp : p ∈ core.operandSums pointer (core.read pointer.toInt) .b) : p ∈ core.sums rules id pointer := by
  rcases hop with hop | hop
  · simp [sums, howner, hop, hmode, hp]
  · simp [sums, howner, hop, hmode, hp]

/-- the sums of pointers and addresses that are computed when `w` has its turn now: its process is moved one further,
and the instruction computes its addresses -/
def Battle.sums {G : Type} (b : Battle G) (w : Warrior) : List (Int64 × Int64) :=
  (w.next.1, 1) :: b.core.sums b.rules w.id w.next.1

def Turn.sums {G : Type} (t : Turn G) : List (Int64 × Int64) :=
  match t.before.warriors[t.place]? with
  | some w => t.before.sums w
  | none => []

/-! ## Platforms that can carry battles -/

/-- the check can come up in a core of this size, while fewer steps than `limit` are counted -/
def Check.Arises (size limit : Nat) : Check → Prop
  | .index i length => i < length
  | .insertion i length => i ≤ length
  | .remainder divisor => 0 < divisor
  | .reduction divisor => divisor = size
  | .addition x y => x < size ∧ y ≤ size
  | .increment n => n < limit
  | .draw bound => bound = size

namespace Platform

variable {m : Type → Type} [Monad m] {G P α : Type}

/-- the platform can carry battles in a core of this size, for so many steps -/
structure Carries (A : Platform m P) (φ : Int64 → P) (size limit : Nat) : Prop where
  size_pos : 0 < size
  address : ∀ x, A.address (φ x) % size = x.toInt % size
  check : ∀ c : Check, c.Arises size limit → A.check c = pure ()

/-- the platform computes the sum as raw pointers do -/
def Agrees (A : Platform m P) (φ : Int64 → P) (p : Int64 × Int64) : Prop := A.move (φ p.1) p.2 = φ (p.1 + p.2)

/-- the platform follows a turn: it computes its sums as raw pointers do, and can count its step -/
def FollowsTurn (A : Platform m P) (φ : Int64 → P) (limit : Nat) (t : Turn G) : Prop :=
  t.before.steps < limit ∧ ∀ p ∈ t.sums, A.Agrees φ p

/-- the platform follows a battle: it follows every turn, and starts programs where they start -/
structure Follows [WordSource G] (A : Platform m P) (φ : Int64 → P) (limit : Nat) (b : Battle G)
    (requests : List Request) : Prop where
  turns : ∀ t ∈ b.turns requests, A.FollowsTurn φ limit t
  starts : ∀ l ∈ b.loaded requests, A.start l.start = φ (Int64.ofNat l.start)

namespace Carries

variable [LawfulMonad m] {A : Platform m P} {φ : Int64 → P} {size limit : Nat} (hA : A.Carries φ size limit)
include hA

/-! ### Rows and cores -/

theorem get_eq [Inhabited α] {row : List α} {i : Nat} {x : α} (h : row[i]? = some x) : A.get row i = pure x := by
  have hlt : i < row.length := (List.getElem?_eq_some_iff.1 h).1
  simp [get, hA.check (.index i row.length) hlt, h]

theorem set_eq {row : List α} {i : Nat} (h : i < row.length) (x : α) : A.set row i x = pure (row.set i x) := by
  simp [set, hA.check (.index i row.length) h]

theorem insert_eq {row : List α} {i : Nat} (h : i ≤ row.length) (x : α) :
    A.insert row i x = pure (row.insertIdx i x) := by
  simp [insert, hA.check (.insertion i row.length) h]

theorem remainder_eq (n : Nat) {divisor : Nat} (h : 0 < divisor) : A.remainder n divisor = pure (n % divisor) := by
  simp [remainder, hA.check (.remainder divisor) h]

theorem sum_eq {x y : Nat} (hx : x < size) (hy : y ≤ size) : A.sum x y = pure (x + y) := by
  simp [sum, hA.check (.addition x y) ⟨hx, hy⟩]

variable {core : Core} (hcore : core.size = size)
include hcore

theorem reduce_eq (address : Int) : A.reduce core address = pure (core.index address) := by
  simp [reduce, hA.check (.reduction core.size) hcore]

omit [LawfulMonad m] in
theorem index_lt (address : Int) : core.index address < core.cells.size :=
  core.index_lt (hcore ▸ hA.size_pos) address

theorem read_eq (address : Int) : A.read core address = pure (core.read address) := by
  have hlt := hA.index_lt hcore address
  have hget : core.cells.toList[core.index address]? = some (core.read address) := by
    simp [Core.read, hlt]
  simp only [read, hA.reduce_eq hcore, pure_bind]
  exact hA.get_eq hget

theorem write_eq (address : Int) (c : Cell) : A.write core address c = pure (core.write address c) := by
  have hlt : core.index address < core.cells.toList.length := hA.index_lt hcore address
  have hcells : (core.cells.toList.set (core.index address) c).toArray =
      core.cells.setIfInBounds (core.index address) c := by
    rw [← Array.toList_setIfInBounds]
  simp only [write, hA.reduce_eq hcore, hA.set_eq hlt, pure_bind, hcells, Core.write]

omit [LawfulMonad m] in
/-- a pointer and its image name the same cell -/
theorem index_image (x : Int64) : core.index (A.address (φ x)) = core.index x.toInt := by
  simp only [Core.index, hcore, hA.address]

theorem read_image (x : Int64) : A.read core (A.address (φ x)) = pure (core.read x.toInt) := by
  rw [hA.read_eq hcore, Core.read, Core.read, hA.index_image hcore]

theorem write_image (x : Int64) (c : Cell) : A.write core (A.address (φ x)) c = pure (core.write x.toInt c) := by
  rw [hA.write_eq hcore, Core.write, Core.write, hA.index_image hcore]

/-! ### Instructions -/

theorem resolve_ok {base : Int64} {c : Cell} {side : Side} {target : Target}
    (hsums : ∀ p ∈ core.operandSums base c side, A.Agrees φ p) (h : core.resolve base c side = .ok target) :
    A.resolve core (φ base) c side = pure (φ target.address, target.immediate) := by
  rcases hoperand : c.operand side with ⟨field, _ | mode⟩
  · simp [Core.resolve, hoperand] at h
  · simp only [Core.operandSums, hoperand] at hsums
    simp only [Core.resolve, hoperand] at h
    cases mode with
    | immediate =>
      cases h
      simp only [resolve, hoperand]
    | direct =>
      cases h
      have hpointer : A.move (φ base) field = φ (base + field) := hsums (base, field) List.mem_cons_self
      simp only [resolve, hoperand, hpointer]
    | aIndirect | bIndirect =>
      cases h
      have hpointer : A.move (φ base) field = φ (base + field) := hsums (base, field) List.mem_cons_self
      have hthrough := hsums (base + field, _) (List.mem_cons_of_mem _ List.mem_cons_self)
      simp only [Agrees] at hthrough
      simp only [resolve, hoperand, hpointer, hA.read_image hcore, liftM_pure, pure_bind, hthrough]

theorem resolve_modeless (base : Int64) {c : Cell} (side : Side) (h : (c.operand side).mode = none) :
    A.resolve core (φ base) c side = throw (.missingMode (core.index base.toInt) side) := by
  simp only [resolve, h, hA.reduce_eq hcore, hA.index_image hcore, liftM_pure, pure_bind]

theorem fields_eq (target : Target) :
    A.fields core (φ target.address, target.immediate) = pure (core.targetFields target) := by
  rcases target with ⟨address, _ | value⟩
  · simp only [fields, Core.targetFields, hA.read_image hcore, pure_bind]
  · simp only [fields, Core.targetFields]

/-- an instruction does to the image what it does to the battle -/
theorem act_image (rules : Rules) (w : Warrior) (pointer : Int64)
    (hsums : ∀ p ∈ core.sums rules w.id pointer, A.Agrees φ p) :
    (A.act core rules (w.image φ) (φ pointer)).run =
      pure ((core.effect rules w pointer).map (Effect.image φ)) := by
  have hexec := core.effect_execution rules w pointer
  have hread := hA.read_image hcore pointer
  have hid : (w.image φ).id = w.id := rfl
  generalize core.effect rules w pointer = result at hexec
  simp only [act, hread, liftM_pure, pure_bind, hid]
  cases hexec with
  | foreign howner =>
    simp only [howner, ne_eq, not_false_eq_true, if_true, hA.reduce_eq hcore, hA.index_image hcore, liftM_pure,
      pure_bind]
    rfl
  | modelessA howner hop hmode =>
    have hfault := hA.resolve_modeless hcore pointer .a hmode
    rcases hop with hop | hop | ⟨hop, hon⟩
    · simp [howner, hop, hfault, Except.map]
    · simp [howner, hop, hfault, Except.map]
    · simp [howner, hop, hon, hfault, Except.map]
  | modelessB howner hop ha hmode =>
    obtain ⟨source, hsource⟩ := core.resolve_eq_ok pointer .a ha
    have hfirst := hA.resolve_ok hcore (fun p hp => hsums p (Core.mem_sums_a howner (hop.imp_right Or.inl) hp)) hsource
    have hfault := hA.resolve_modeless hcore pointer .b hmode
    rcases hop with hop | hop
    · simp [howner, hop, hfirst, hfault, Except.map]
    · simp [howner, hop, hfirst, hfault, Except.map]
  | dat howner hop => simp [howner, hop, Except.map, Effect.image]
  | jmp howner hop =>
    have htarget := hsums (pointer, (core.read pointer.toInt).a.field) (by simp [Core.sums, howner, hop])
    simp only [Agrees] at htarget
    simp [howner, hop, Except.map, Effect.image, htarget]
  | mov howner hop hsource htarget =>
    have hmode := Core.isSome_mode_of_resolve hsource
    have hfirst := hA.resolve_ok hcore (fun p hp => hsums p (Core.mem_sums_a howner (Or.inl hop) hp)) hsource
    have hsecond := hA.resolve_ok hcore (fun p hp => hsums p (Core.mem_sums_b howner (Or.inl hop) hmode hp)) htarget
    simp [howner, hop, hfirst, hsecond, hA.read_image hcore, Except.map, Effect.image]
  | add howner hop hsource htarget =>
    have hmode := Core.isSome_mode_of_resolve hsource
    have hfirst := hA.resolve_ok hcore (fun p hp => hsums p (Core.mem_sums_a howner (Or.inr (Or.inl hop)) hp)) hsource
    have hsecond := hA.resolve_ok hcore (fun p hp => hsums p (Core.mem_sums_b howner (Or.inr hop) hmode hp)) htarget
    simp [howner, hop, hfirst, hsecond, hA.fields_eq hcore, hA.read_image hcore, Except.map, Effect.image]
  | spl howner hop hon htarget hroom =>
    have hfirst := hA.resolve_ok hcore
      (fun p hp => hsums p (Core.mem_sums_a howner (Or.inr (Or.inr ⟨hop, hon⟩)) hp)) htarget
    simp [howner, hop, hon, hfirst, w.length_image, hroom, Except.map, Effect.image]
  | splFull howner hop hon htarget hfull =>
    have hfirst := hA.resolve_ok hcore
      (fun p hp => hsums p (Core.mem_sums_a howner (Or.inr (Or.inr ⟨hop, hon⟩)) hp)) htarget
    simp [howner, hop, hon, hfirst, w.length_image, Nat.not_lt.2 hfull, Except.map, Effect.image]
  | splOff howner hop hoff => simp [howner, hop, hoff, Except.map, Effect.image]
  | nop howner hop => simp [howner, hop, Except.map, Effect.image]

omit hcore

/-! ### Groups -/

theorem next_image [Inhabited P] {rules : Rules} {w : Warrior} (h : w.Orderly rules)
    (hmove : A.Agrees φ (w.next.1, 1)) : A.next (w.image φ) = pure (φ w.next.1, w.next.2.image φ) := by
  obtain ⟨hget, hrow, hlast, hcursor⟩ := h.next_eq
  have hlength : w.processes.length = w.size := Rotation.length_processes w.rotation
  have hplace : (w.image φ).processes[(w.image φ).cursor]? = some (φ w.next.1) := by
    simp only [Warrior.image, List.getElem?_map, hget, Option.map_some]
  have hlt : (w.image φ).cursor < (w.image φ).processes.length := (List.getElem?_eq_some_iff.1 hplace).1
  have hpos : 0 < ((w.image φ).processes.set (w.image φ).cursor (φ (w.next.1 + 1))).length := by
    rw [List.length_set]
    exact Nat.zero_lt_of_lt hlt
  simp only [next, hA.get_eq hplace, pure_bind, show A.move (φ w.next.1) 1 = φ (w.next.1 + 1) from hmove,
    hA.set_eq hlt, hA.remainder_eq _ hpos]
  simp only [Warrior.image, hrow, hlast, hcursor, List.map_set, List.length_set, List.length_map, hlength]
  rfl

theorem onGroup_image (w : Warrior) (effect : Effect) :
    A.onGroup (w.image φ) (effect.image φ) = pure ((effect.onWarrior w).image φ) := by
  have hlast : (w.image φ).last < (w.image φ).processes.length := by
    rw [w.length_image]
    exact w.rotation.last_lt_size
  cases effect with
  | idle => rfl
  | die => rfl
  | store address c => rfl
  | jump target =>
    have hrow : (w.jump target).processes = w.processes.set w.rotation.last target :=
      Rotation.processes_jump target w.rotation
    simp only [onGroup, Effect.image, hA.set_eq hlast, pure_bind, Effect.onWarrior]
    simp only [Warrior.image, hrow, List.map_set]
    rfl
  | split start =>
    have hrow : (w.split start).processes = w.processes.insertIdx (w.rotation.last + 1) start :=
      Rotation.processes_split start w.rotation
    simp only [onGroup, Effect.image, hA.insert_eq (Nat.succ_le_of_lt hlast), pure_bind, Effect.onWarrior]
    simp only [Warrior.image, hrow, List.map_insertIdx]
    rfl

theorem onCore_image {core : Core} (hcore : core.size = size) (effect : Effect) :
    A.onCore core (effect.image φ) = pure (effect.onCore core) := by
  cases effect with
  | store address c => exact hA.write_image hcore address c
  | idle => rfl
  | die => rfl
  | jump target => rfl
  | split start => rfl

/-! ### Loading -/

theorem scan_eq {core : Core} (hcore : core.size = size) (placement : Placement) (start length : Nat) :
    A.scan core placement start length = pure (core.firstOccupied? placement start length) := by
  induction length generalizing start with
  | zero => rfl
  | succ length ih =>
    simp only [scan, Core.firstOccupied?, Core.isOccupied, hA.read_eq hcore, hA.reduce_eq hcore, pure_bind, ih]
    cases hcheck : placement.checks core.size start with
    | false => rfl
    | true => by_cases hempty : (core.read start).isEmpty = true <;> simp [hempty]

theorem firstOccupied?_eq {core : Core} (hcore : core.size = size) (placement : Placement) {start length : Nat}
    (hstart : start < size) (hlength : length ≤ size) :
    A.firstOccupied? core placement start length = pure (core.firstOccupied? placement start length) := by
  simp only [firstOccupied?, hA.sum_eq hstart hlength, pure_bind, Nat.add_sub_cancel_left, hA.scan_eq hcore]

theorem writeFrom_eq {core : Core} (hcore : core.size = size) {start : Nat} (offset : Nat) (code : List Cell)
    (hstart : start < size) (hlength : offset + code.length ≤ size) :
    A.writeFrom core start offset code = pure (core.writeFrom (start + offset : Nat) code) := by
  induction code generalizing core offset with
  | nil => rfl
  | cons c rest ih =>
    rw [List.length_cons] at hlength
    simp only [writeFrom, hA.sum_eq hstart (show offset ≤ size by omega), hA.write_eq hcore, pure_bind]
    rw [ih (by simpa using hcore) (offset + 1) (by omega)]
    rfl

theorem place_image {b : Battle G} (hcore : b.core.size = size) (id : ProgramId) (process : ProcessId)
    {code : List Cell} {start : Nat} (hstart : start < size) (hlength : code.length ≤ size)
    (hpointer : A.start start = φ (Int64.ofNat start)) :
    A.place (b.image φ) id process code start = pure ((b.place id process code start).image φ) := by
  have hwrite := hA.writeFrom_eq hcore 0 (code.map (Cell.ownedBy id process)) hstart
    (by simpa using hlength)
  simp only [place, hwrite, pure_bind, hpointer, Battle.place, Battle.image, List.map_append]
  rfl

theorem loadAt_image {b : Battle G} (hcore : b.core.size = size) (id : ProgramId) (process : ProcessId)
    (code : List Cell) (address : Int)
    (hstart : ∀ b', b.loadAt id process code address = .ok b' →
      A.start (b.core.index address) = φ (Int64.ofNat (b.core.index address))) :
    A.loadAt (b.image φ) id process code address =
      pure ((b.loadAt id process code address).map (Battle.image φ)) := by
  simp only [loadAt, Battle.checkLoadable_image, Battle.image_core, Battle.image_rules, hA.reduce_eq hcore]
  simp only [Battle.loadAt, bind, Except.bind] at hstart ⊢
  cases hload : b.checkLoadable id code with
  | error refusal => rfl
  | ok _ =>
    have hlength : code.length ≤ size := hcore ▸ Battle.length_le_of_checkLoadable hload
    have hlt : b.core.index address < size :=
      hcore ▸ b.core.index_lt (Battle.size_pos_of_checkLoadable hload) address
    have hscan := hA.firstOccupied?_eq hcore b.rules.placement hlt hlength
    simp only [hload] at hstart
    simp only [hscan, pure_bind]
    cases hfree : b.core.firstOccupied? b.rules.placement (b.core.index address) code.length with
    | some place => rfl
    | none =>
      simp only [hfree] at hstart
      simp only [hA.place_image hcore id process hlt hlength (hstart _ rfl), pure_bind]
      rfl

section

variable [WordSource G]

theorem drawStart_image {b : Battle G} (hcore : b.core.size = size) {length : Nat} (hlength : length ≤ size)
    (attempts : Nat) (g : G) :
    A.drawStart (b.image φ) length attempts g = pure (b.drawStart length attempts g) := by
  induction attempts generalizing g with
  | zero => rfl
  | succ attempts ih =>
    have hcheck : A.check (.draw b.core.size) = pure () := hA.check (.draw b.core.size) hcore
    simp only [drawStart, Battle.drawStart, Battle.image_core, Battle.image_rules, hcheck, pure_bind]
    rcases hdraw : Random.drawBelow? b.core.size g with ⟨_ | start, g'⟩
    · rfl
    · have hlt : start < size := hcore ▸ Random.drawWithin?_lt hdraw
      simp only [hA.firstOccupied?_eq hcore b.rules.placement hlt hlength, pure_bind]
      cases b.core.firstOccupied? b.rules.placement start length with
      | none => rfl
      | some place => exact ih g'

theorem load_image {b : Battle G} (hcore : b.core.size = size) (id : ProgramId) (process : ProcessId)
    (code : List Cell)
    (hstart : ∀ start b', b.load id process code = (.ok start, b') → A.start start = φ (Int64.ofNat start)) :
    A.load (b.image φ) id process code =
      pure ((b.load id process code).1, (b.load id process code).2.image φ) := by
  simp only [load, Battle.load, Battle.checkLoadable_image] at hstart ⊢
  cases hload : b.checkLoadable id code with
  | error refusal => rfl
  | ok _ =>
    have hlength : code.length ≤ size := hcore ▸ Battle.length_le_of_checkLoadable hload
    have hdraw := hA.drawStart_image hcore hlength b.rules.maxPlacementAttempts b.generator
    simp only [Battle.image_rules, Battle.image_generator, hdraw, pure_bind]
    simp only [hload] at hstart
    rcases hdrawn : b.drawStart code.length b.rules.maxPlacementAttempts b.generator with ⟨_ | start, generator⟩
    · rfl
    · have hlt : start < size := hcore ▸ (Battle.drawStart_ok hdrawn).2
      simp only [hdrawn] at hstart
      have hplace := hA.place_image (b := { b with generator }) hcore id process hlt hlength
        (hstart start _ rfl)
      change A.place (Battle.image φ { b with generator }) id process code start >>= _ = _
      rw [hplace, pure_bind]

end

/-! ### Turns -/

/-- from `k` places behind the turn on, the search finds the first live group, if it looks far enough -/
theorem seek_eq_some {groups : List (Group P)} {g : Group P} {turn i j k places : Nat} (hg : groups[i]? = some g)
    (halive : g.alive = true) (hround : (turn + j) % groups.length = i)
    (hdead : ∀ l < j, ∀ g, groups[(turn + l) % groups.length]? = some g → g.alive = false)
    (hk : k ≤ j) (hj : j < k + places) : A.seek groups turn k places = pure (some i) := by
  have hi : i < groups.length := (List.getElem?_eq_some_iff.1 hg).1
  have hpos : 0 < groups.length := Nat.zero_lt_of_lt hi
  induction places generalizing k with
  | zero => omega
  | succ places ih =>
    rcases Nat.eq_or_lt_of_le hk with rfl | hlater
    · simp only [seek, hA.remainder_eq _ hpos, hround, hA.get_eq hg, pure_bind, halive, if_true]
    · have hget := List.getElem?_eq_getElem (Nat.mod_lt (turn + k) hpos)
      have hpassed := hdead k hlater _ hget
      simp only [seek, hA.remainder_eq _ hpos, hA.get_eq hget, pure_bind, hpassed, Bool.false_eq_true, if_false]
      exact ih hlater (by omega)

theorem seek_eq_none {groups : List (Group P)} (hdead : ∀ g ∈ groups, g.alive = false) (turn k : Nat) {places : Nat}
    (hplaces : places ≤ groups.length) : A.seek groups turn k places = pure none := by
  induction places generalizing k with
  | zero => rfl
  | succ places ih =>
    have hpos : 0 < groups.length := by omega
    have hlt : (turn + k) % groups.length < groups.length := Nat.mod_lt _ hpos
    have hget := List.getElem?_eq_getElem hlt
    have hpassed := hdead _ (List.getElem_mem hlt)
    simp only [seek, hA.remainder_eq _ hpos, hA.get_eq hget, pure_bind, hpassed, Bool.false_eq_true, if_false]
    exact ih (k + 1) (by omega)

theorem seek_image {b : Battle G} {turn : Nat} (hturn : turn < b.warriors.length) :
    A.seek (b.image φ).groups turn 0 (b.image φ).groups.length = pure ((b.nextLive? turn).map (·.2)) := by
  have hlength : (b.image φ).groups.length = b.warriors.length := List.length_map _
  have hplace (j : Nat) : (b.image φ).groups[j]? = b.warriors[j]?.map (·.image φ) := List.getElem?_map
  -- a place that was passed over, going round from the turn
  have hpassed {q : Nat} (hq : ∀ w, b.warriors[q]? = some w → w.alive = false) (g : Group P)
      (hg : (b.image φ).groups[q]? = some g) : g.alive = false := by
    rw [hplace] at hg
    obtain ⟨w, hw, rfl⟩ := Option.map_eq_some_iff.1 hg
    exact hq w hw
  cases hnext : b.nextLive? turn with
  | none =>
    have hdead : ∀ g ∈ (b.image φ).groups, g.alive = false := by
      intro g hg
      obtain ⟨w, hw, rfl⟩ := List.mem_map.1 hg
      have hliving := Battle.nextLive?_eq_none_iff.1 hnext
      simp only [Battle.living, List.filter_eq_nil_iff, Bool.not_eq_true] at hliving
      exact hliving w hw
    exact hA.seek_eq_none hdead turn 0 (Nat.le_refl _)
  | some found =>
    obtain ⟨w, i⟩ := found
    obtain ⟨hw, halive, hskipped⟩ := Battle.nextLive?_eq_some hnext
    have hi : i < b.warriors.length := (List.getElem?_eq_some_iff.1 hw).1
    have hlive : (b.image φ).groups[i]? = some (w.image φ) := by rw [hplace, hw, Option.map_some]
    rw [Option.map_some, hlength]
    rcases hskipped with ⟨hle, hdead⟩ | ⟨hback, hfront⟩
    · -- the next one stands `i - turn` places behind the turn
      refine hA.seek_eq_some (j := i - turn) hlive halive ?_ ?_ (Nat.zero_le _) (by omega)
      · rw [hlength, Nat.mod_eq_of_lt (by omega)]
        omega
      · intro l hl
        rw [hlength, Nat.mod_eq_of_lt (by omega)]
        exact hpassed (hdead _ (by omega) (by omega))
    · -- nobody behind the turn is alive, so the search comes round
      have hbefore : i < turn := by
        by_contra hge
        have hdead := hback i (by omega) w hw
        simp [halive] at hdead
      refine hA.seek_eq_some (j := b.warriors.length - turn + i) hlive halive ?_ ?_ (Nat.zero_le _) (by omega)
      · rw [hlength, Nat.mod_eq_sub_mod (by omega), Nat.mod_eq_of_lt (by omega)]
        omega
      · intro l hl
        rcases Nat.lt_or_ge (turn + l) b.warriors.length with hin | hout
        · rw [hlength, Nat.mod_eq_of_lt hin]
          exact hpassed (hback _ (by omega))
        · rw [hlength, Nat.mod_eq_sub_mod hout, Nat.mod_eq_of_lt (by omega)]
          exact hpassed (hfront _ (by omega))

variable [Inhabited P]

theorem execute_image {b : Battle G} {w : Warrior} {i : Nat} (hcore : b.core.size = size)
    (hw : b.warriors[i]? = some w) (horder : w.Orderly b.rules) (hsums : ∀ p ∈ b.sums w, A.Agrees φ p) :
    A.execute (b.image φ) i = pure ((b.execute w i).image φ) := by
  have hget : (b.image φ).groups[i]? = some (w.image φ) := by
    simp only [Battle.image, List.getElem?_map, hw, Option.map_some]
  have hlt : i < (b.image φ).groups.length := (List.getElem?_eq_some_iff.1 hget).1
  have hmove : A.Agrees φ (w.next.1, 1) := hsums _ List.mem_cons_self
  have hact := hA.act_image hcore b.rules w.next.2 w.next.1
    fun p hp => hsums p (List.mem_cons_of_mem _ hp)
  have hset (v : Warrior) : A.set (b.image φ).groups i (v.image φ) = pure ((b.warriors.set i v).map (·.image φ)) := by
    rw [hA.set_eq hlt, List.map_set]
    rfl
  simp only [execute, hA.get_eq hget, hA.next_image horder hmove, pure_bind, Battle.execute, Battle.image_core,
    Battle.image_rules, hact]
  cases b.core.effect b.rules w.next.2 w.next.1 with
  | ok effect =>
    simp only [Except.map, hA.onCore_image hcore, hA.onGroup_image, hset, pure_bind]
    rfl
  | error fault =>
    simp only [Except.map, show (w.next.2.image φ).kill = w.next.2.kill.image φ from rfl, hset, pure_bind]
    rfl

/-- a turn: the machine passes it on after the instruction, the battle before -/
theorem takeTurn_image {b : Battle G} {w : Warrior} {i : Nat} (hcore : b.core.size = size)
    (hw : b.warriors[i]? = some w) (horder : w.Orderly b.rules) (hlimit : b.steps < limit)
    (hsums : ∀ p ∈ b.sums w, A.Agrees φ p) : A.takeTurn (b.image φ) i = pure ((b.takeTurn w i).image φ) := by
  have hexecute := hA.execute_image (b := { b with steps := b.steps + 1 }) hcore hw horder hsums
  have hcheck : A.check (.increment (b.image φ).steps) = pure () := hA.check (.increment b.steps) hlimit
  have hpos : 0 < b.warriors.length := Nat.zero_lt_of_lt (List.getElem?_eq_some_iff.1 hw).1
  have hpassed : b.takeTurn w i =
      { Battle.execute { b with steps := b.steps + 1 } w i with turn := some ((i + 1) % b.warriors.length) } := by
    simp only [Battle.takeTurn, Battle.execute]
    cases b.core.effect b.rules w.next.2 w.next.1 <;> rfl
  have hlength : ((Battle.execute { b with steps := b.steps + 1 } w i).image φ).groups.length = b.warriors.length := by
    have hset := congrArg (fun b' => b'.warriors.length) hpassed
    simp only [Battle.takeTurn_warriors, List.length_set] at hset
    simp only [Battle.image, List.length_map, ← hset]
  have hstart : { b.image φ with steps := (b.image φ).steps + 1 } =
      Battle.image φ { b with steps := b.steps + 1 } := rfl
  simp only [takeTurn, hcheck, hstart, hexecute, pure_bind, hpassed, hlength, hA.remainder_eq (i + 1) hpos]
  rfl

theorem step_image {b : Battle G} {rules : Rules} (hstanding : b.Standing) (horder : b.Orderly rules)
    (hsize : rules.coreSize = size)
    (hfollows : ∀ t, b.nextTurn? = some t → A.FollowsTurn φ limit t) :
    A.step (b.image φ) = pure (b.step.1, b.step.2.image φ) := by
  rcases Battle.step_cases b with ⟨hturn, hstep⟩ | ⟨hover, hstep⟩ | ⟨turn, hturn, hopen, hnext, hstep⟩ |
    ⟨turn, w, i, hturn, hopen, hnext, hstep⟩
  · -- not started
    simp only [step, Battle.image_turn, hturn, hstep]
    rfl
  · -- concluded before
    cases hturn : b.turn with
    | none => simp [step, hturn, Battle.step, Battle.emit, Battle.image]
    | some turn => simp only [step, Battle.image_turn, hturn, Battle.image_concluded, hover, if_true, hstep]
  · -- nobody is alive
    have hseek := hA.seek_image (hstanding.turn_lt turn hturn)
    simp only [step, Battle.image_turn, hturn, Battle.image_concluded, hopen, Bool.false_eq_true, if_false, hseek,
      hnext, Option.map_none, pure_bind, hstep]
    rfl
  · -- a turn is taken
    have hseek := hA.seek_image (hstanding.turn_lt turn hturn)
    have hw := (Battle.nextLive?_eq_some hnext).1
    have hown : w.Orderly b.rules := horder.rules_eq ▸ horder.warriors w (List.mem_of_getElem? hw)
    have htaken := Battle.nextTurn?_of_next hturn hopen hnext
    obtain ⟨hlimit, hsums⟩ := hfollows _ htaken
    simp only [Turn.sums, hw] at hsums
    have htake := hA.takeTurn_image (horder.size_eq.trans hsize) hw hown hlimit hsums
    simp only [step, Battle.image_turn, hturn, Battle.image_concluded, hopen, Bool.false_eq_true, if_false, hseek,
      hnext, Option.map_some, pure_bind, hstep, htake, Battle.conclude_image]

theorem run_image {b : Battle G} {rules : Rules} (hstanding : b.Standing) (horder : b.Orderly rules)
    (hsize : rules.coreSize = size) {budget : Nat}
    (hfollows : ∀ t ∈ b.runTurns budget, A.FollowsTurn φ limit t) :
    A.run (b.image φ) budget = pure ((b.run budget).1, (b.run budget).2.image φ) := by
  induction budget generalizing b with
  | zero => simp only [run, Battle.run, Battle.outcome_image]
  | succ budget ih =>
    have hfirst := hA.step_image hstanding horder hsize fun t ht => hfollows t (Battle.mem_runTurns_of_next ht)
    have hmoves := b.step_moves
    rcases hstep : b.step with ⟨_ | _, next⟩
    · simp only [run, Battle.run, hfirst, hstep, pure_bind, Battle.outcome_image]
    · have hrest : ∀ t ∈ next.runTurns budget, A.FollowsTurn φ limit t := by
        intro t ht
        apply hfollows
        simp only [Battle.runTurns, hstep]
        exact List.mem_append_right _ ht
      rw [hstep] at hmoves
      have hlater := ih (Battle.moves_standing hmoves hstanding) (Battle.moves_orderly hmoves horder) hrest
      simp only [run, Battle.run, hfirst, hstep, pure_bind, hlater]

/-! ### Requests -/

variable [WordSource G] {b : Battle G} {rules : Rules} (hstanding : b.Standing) (horder : b.Orderly rules)
  (hsize : rules.coreSize = size)
include hstanding horder hsize

theorem perform_image {request : Request}
    (hturns : ∀ t ∈ b.requestTurns request, A.FollowsTurn φ limit t)
    (hstarts : ∀ l ∈ b.loading? request, A.start l.start = φ (Int64.ofNat l.start)) :
    A.perform (b.image φ) request = pure ((b.perform request).1, (b.perform request).2.image φ) := by
  have hcore : b.core.size = size := horder.size_eq.trans hsize
  cases request with
  | load id process code =>
    have hload := hA.load_image hcore id process code fun start b' h => by
      exact hstarts ⟨id, process, code, start⟩ (by simp [Battle.loading?, h, Except.toOption])
    simp only [perform, hload, pure_bind, Battle.perform]
    rcases b.load id process code with ⟨_ | start, b'⟩ <;> rfl
  | loadAt id process code address =>
    have hload := hA.loadAt_image hcore id process code address fun b' h => by
      exact hstarts ⟨id, process, code, b.core.index address⟩ (by simp [Battle.loading?, h, Except.toOption])
    simp only [perform, hload, pure_bind, Battle.perform]
    cases b.loadAt id process code address <;> rfl
  | start =>
    have hempty : (b.image φ).groups.isEmpty = b.warriors.isEmpty := List.isEmpty_map
    simp only [perform, Battle.perform, Machine.start, Battle.start, hempty]
    cases b.warriors.isEmpty <;> rfl
  | step =>
    have hstep := hA.step_image hstanding horder hsize fun t ht => hturns t (by simp [Battle.requestTurns, ht])
    simp only [perform, hstep, pure_bind, Battle.perform]
  | run budget =>
    have hrun := hA.run_image hstanding horder hsize hturns
    simp only [perform, hrun, pure_bind, Battle.perform]

/-- **Simulation.** A platform that can carry a battle, and follows it while the requests are carried out, gives the
same replies and the image of the battle. -/
theorem replay_image {requests : List Request} (hfollows : A.Follows φ limit b requests) :
    A.replay (b.image φ) requests = pure ((b.replay requests).1, (b.after requests).image φ) := by
  induction requests generalizing b with
  | nil => rfl
  | cons request rest ih =>
    have hfirst := hA.perform_image hstanding horder hsize
      (fun t ht => hfollows.turns t (List.mem_append_left _ ht))
      (fun l hl => hfollows.starts l (List.mem_append_left _ (by simpa using hl)))
    have hrest : A.Follows φ limit (b.perform request).2 rest :=
      ⟨fun t ht => hfollows.turns t (List.mem_append_right _ ht),
        fun l hl => hfollows.starts l (List.mem_append_right _ hl)⟩
    have hmoves := b.perform_moves request
    have hlater := ih (Battle.moves_standing hmoves hstanding) (Battle.moves_orderly hmoves horder) hrest
    simp only [replay, hfirst, hlater, pure_bind, Battle.replay, Battle.after_cons]

omit hstanding horder hsize in
/-- a machine with the rules and the generator of a new battle ends up as its image -/
theorem replay_new {g : G} {b₀ : Battle G} (h₀ : Battle.ofRules rules g = .ok b₀) (hsize : rules.coreSize = size)
    {requests : List Request} (hfollows : A.Follows φ limit b₀ requests) :
    ∃ s₀, Machine.ofRules rules g = .ok s₀ ∧
      A.replay s₀ requests = pure ((b₀.replay requests).1, (b₀.after requests).image φ) := by
  refine ⟨b₀.image φ, ?_, hA.replay_image (Battle.standing_ofRules h₀) (Battle.orderly_ofRules h₀) hsize hfollows⟩
  obtain ⟨hpos, rfl⟩ := Battle.ofRules_ok h₀
  rw [Machine.ofRules, if_neg (Nat.ne_of_gt hpos)]
  rfl

end Carries

end Platform

end CoreWar
