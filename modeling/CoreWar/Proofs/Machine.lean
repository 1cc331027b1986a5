/-
Machines: the engine as a program on rows, places and words.

A battle keeps the processes of a warrior in two halves, walks along the row of warriors to find the next one, and
addresses its core by total functions. A machine has a row of processes with the places of the next and of the last one,
goes round its groups by remainders, and reduces an address before it indexes the cells. Everything that is not defined
for all values, an index, an insertion, a remainder, a sum of signed words, the count of the steps, the bound of a draw,
is put to a `Check` before it is done.

What the pointers of a machine are, how they are moved and turned into addresses, and what is done about a check, is up
to its `Platform`. The functions below are written once for all platforms; two of them matter:

- `checked`: pointers are signed words that wrap around, and the machine stops at the first check that does not hold.
- `residues`: pointers are residues modulo the size of the core, computed in exact integers; nothing is checked.

Events are not part of a machine.
-/
import CoreWar.Battle.Request

namespace CoreWar

/-! ## Checks -/

/-- what an operation needs in order to be defined -/
inductive Check where
  /-- there is a place `i` in a row -/
  | index (i length : Nat)
  /-- something can be put before place `i` of a row, or behind its end -/
  | insertion (i length : Nat)
  /-- places can be taken modulo this -/
  | remainder (divisor : Nat)
  /-- addresses can be taken modulo this, as a signed word -/
  | reduction (divisor : Nat)
  /-- the sum of two signed words is one -/
  | addition (x y : Nat)
  /-- the next number is an unsigned word -/
  | increment (n : Nat)
  /-- there is a number below this to draw -/
  | draw (bound : Nat)
deriving DecidableEq, Repr

def Check.Holds : Check → Prop
  | .index i length => i < length
  | .insertion i length => i ≤ length
  | .remainder divisor => 0 < divisor
  | .reduction divisor => 0 < divisor ∧ (divisor : Int) ≤ Int64.maxValue.toInt
  | .addition x y => (x : Int) + y ≤ Int64.maxValue.toInt
  | .increment n => n + 1 < UInt64.size
  | .draw bound => 0 < bound

instance : DecidablePred Check.Holds
  | .index i length => inferInstanceAs (Decidable (i < length))
  | .insertion i length => inferInstanceAs (Decidable (i ≤ length))
  | .remainder divisor => inferInstanceAs (Decidable (0 < divisor))
  | .reduction divisor => inferInstanceAs (Decidable (0 < divisor ∧ (divisor : Int) ≤ Int64.maxValue.toInt))
  | .addition x y => inferInstanceAs (Decidable ((x : Int) + y ≤ Int64.maxValue.toInt))
  | .increment n => inferInstanceAs (Decidable (n + 1 < UInt64.size))
  | .draw bound => inferInstanceAs (Decidable (0 < bound))

/-! ## States -/

/-- a loaded program -/
structure Group (P : Type) where
  id : ProgramId
  code : List Cell
  processes : List P
  /-- the place of the process that is next -/
  cursor : Nat := 0
  /-- the place of the process handed out last -/
  last : Nat := 0
  alive : Bool := true
deriving DecidableEq, Repr, Inhabited

def Group.kill {P : Type} (g : Group P) : Group P := { g with alive := false }

structure Machine (G P : Type) where
  rules : Rules
  core : Core
  generator : G
  groups : List (Group P) := []
  turn : Option Nat := none
  steps : Nat := 0
  concluded : Bool := false
  faults : List FaultRecord := []
deriving DecidableEq, Repr

namespace Machine

variable {G P : Type}

def ofRules (rules : Rules) (generator : G) : Except Refusal (Machine G P) :=
  if rules.coreSize = 0 then .error .emptyCore
  else .ok { rules, core := .blank rules.coreSize, generator }

def outcome (s : Machine G P) : Outcome :=
  if s.groups.isEmpty then .running
  else match s.groups.filter (·.alive) with
    | [] => .draw
    | [g] => .winner g.id
    | _ => .running

/-- concludes the game if it is decided; the flag tells whether it goes on -/
def conclude (s : Machine G P) : Bool × Machine G P :=
  if s.outcome = .running then (true, s) else (false, { s with concluded := true })

def checkLoadable (s : Machine G P) (id : ProgramId) (code : List Cell) : Except Refusal Unit :=
  if code.isEmpty then .error .emptyProgram
  else if s.core.size < code.length then .error (.programTooLarge code.length s.core.size)
  else if (s.groups.find? (·.id == id)).isSome then .error (.duplicateProgram id)
  else .ok ()

def start (s : Machine G P) : Except Refusal (Machine G P) :=
  if s.groups.isEmpty then .error .noPrograms else .ok { s with turn := some 0 }

end Machine

/-- what an instruction does, apart from moving its process one further -/
inductive Act (P : Type) where
  | idle
  | die
  | jump (target : P)
  | store (pointer : P) (cell : Cell)
  | split (start : P)
deriving DecidableEq, Repr

/-! ## Platforms -/

/-- the pointers of a machine, and what it does about checks -/
structure Platform (m : Type → Type) (P : Type) where
  /-- the pointer to the place where a program starts -/
  start : Nat → P
  /-- the pointer moved by a field -/
  move : P → Int64 → P
  address : P → Int
  check : Check → m Unit

namespace Platform

def checked : Platform (Except Check) Int64 where
  start place := Int64.ofNat place
  move pointer distance := pointer + distance
  address pointer := pointer.toInt
  check c := if c.Holds then .ok () else .error c

def residues (size : Nat) : Platform Id Int where
  start place := place % size
  move pointer distance := (pointer + distance.toInt) % size
  address pointer := pointer
  check _ := pure ()

variable {m : Type → Type} [Monad m] {G P α : Type} (A : Platform m P)

/-! ### Rows and cores -/

def get [Inhabited α] (row : List α) (i : Nat) : m α := do
  A.check (.index i row.length)
  return row[i]?.getD default

def set (row : List α) (i : Nat) (x : α) : m (List α) := do
  A.check (.index i row.length)
  return row.set i x

def insert (row : List α) (i : Nat) (x : α) : m (List α) := do
  A.check (.insertion i row.length)
  return row.insertIdx i x

def remainder (n divisor : Nat) : m Nat := do
  A.check (.remainder divisor)
  return n % divisor

def sum (x y : Nat) : m Nat := do
  A.check (.addition x y)
  return x + y

/-- reduces an address into the core -/
def reduce (core : Core) (address : Int) : m Nat := do
  A.check (.reduction core.size)
  return core.index address

def read (core : Core) (address : Int) : m Cell := do
  let place ← A.reduce core address
  A.get core.cells.toList place

def write (core : Core) (address : Int) (c : Cell) : m Core := do
  let place ← A.reduce core address
  let cells ← A.set core.cells.toList place c
  return ⟨cells.toArray⟩

/-! ### Groups -/

/-- hands out the process whose turn it is, moves it one further and passes the turn on -/
def next [Inhabited P] (g : Group P) : m (P × Group P) := do
  let pointer ← A.get g.processes g.cursor
  let processes ← A.set g.processes g.cursor (A.move pointer 1)
  let cursor ← A.remainder (g.cursor + 1) processes.length
  return (pointer, { g with processes, cursor, last := g.cursor })

/-- the group after what an instruction did: a jump sends the process handed out last elsewhere, a split puts one behind
it -/
def onGroup (g : Group P) : Act P → m (Group P)
  | .die => return g.kill
  | .jump target => do
    let processes ← A.set g.processes g.last target
    return { g with processes }
  | .split start => do
    let processes ← A.insert g.processes (g.last + 1) start
    return { g with processes }
  | .idle | .store _ _ => return g

/-! ### Instructions -/

/-- the pointer an operand designates and, if the operand is immediate, its value -/
def resolve (core : Core) (base : P) (c : Cell) (side : Side) : ExceptT Fault m (P × Option Int64) := do
  let operand := c.operand side
  let pointer := A.move base operand.field
  match operand.mode with
  | none => do
    let place ← A.reduce core (A.address base)
    throw (.missingMode place side)
  | some .direct => return (pointer, none)
  | some .immediate => return (base, some operand.field)
  | some .aIndirect => do
    let through ← A.read core (A.address pointer)
    return (A.move pointer through.a.field, none)
  | some .bIndirect => do
    let through ← A.read core (A.address pointer)
    return (A.move pointer through.b.field, none)

/-- the field pair of what an operand designates -/
def fields (core : Core) : P × Option Int64 → m (Int64 × Int64)
  | (_, some value) => return (0, value)
  | (pointer, none) => do
    let c ← A.read core (A.address pointer)
    return c.fields

def act (core : Core) (rules : Rules) (g : Group P) (pointer : P) : ExceptT Fault m (Act P) := do
  let c ← A.read core (A.address pointer)
  if c.ownerProgram ≠ some g.id then do
    let place ← A.reduce core (A.address pointer)
    throw (.ownershipMismatch place c.ownerProgram g.id)
  else match c.op with
    | .dat => return .die
    | .jmp => return .jump (A.move pointer c.a.field)
    | .add => do
      let source ← A.resolve core pointer c .a
      let target ← A.resolve core pointer c .b
      let (a₁, b₁) ← A.fields core source
      let (a₂, b₂) ← A.fields core target
      let old ← A.read core (A.address target.1)
      return .store target.1 (old.setFields (a₁ + a₂, b₁ + b₂))
    | .mov => do
      let source ← A.resolve core pointer c .a
      let target ← A.resolve core pointer c .b
      let copy ← A.read core (A.address source.1)
      return .store target.1 copy
    | .spl =>
      if rules.splitProcesses then do
        let target ← A.resolve core pointer c .a
        return if g.processes.length < rules.maxProcesses then .split target.1 else .idle
      else return .idle
    | .nop => return .idle

def onCore (core : Core) : Act P → m Core
  | .store pointer c => A.write core (A.address pointer) c
  | .idle | .die | .jump _ | .split _ => return core

/-! ### Turns -/

variable [Inhabited P]

/-- lets the group at place `i` execute one instruction; a fault kills it -/
def execute (s : Machine G P) (i : Nat) : m (Machine G P) := do
  let g ← A.get s.groups i
  let (pointer, g) ← A.next g
  match ← (A.act s.core s.rules g pointer).run with
  | .ok act => do
    let core ← A.onCore s.core act
    let g ← A.onGroup g act
    let groups ← A.set s.groups i g
    return { s with core, groups }
  | .error fault => do
    let groups ← A.set s.groups i g.kill
    return { s with groups, faults := s.faults ++ [⟨s.steps, g.id, fault⟩] }

/-- the place of the first live group, going round from `k` places behind the turn on, at most so many places -/
def seek (groups : List (Group P)) (turn k : Nat) : Nat → m (Option Nat)
  | 0 => return none
  | places + 1 => do
    let i ← A.remainder (turn + k) groups.length
    let g ← A.get groups i
    if g.alive then return some i else seek groups turn (k + 1) places

/-- gives the group at place `i` its turn and passes the turn on -/
def takeTurn (s : Machine G P) (i : Nat) : m (Machine G P) := do
  A.check (.increment s.steps)
  let s ← A.execute { s with steps := s.steps + 1 } i
  let turn ← A.remainder (i + 1) s.groups.length
  return { s with turn := some turn }

def step (s : Machine G P) : m (Bool × Machine G P) := do
  match s.turn with
  | none => return (false, s)
  | some turn =>
    if s.concluded then return (false, s)
    else match ← A.seek s.groups turn 0 s.groups.length with
      | none => return (false, { s with concluded := true })
      | some i => do
        let s ← A.takeTurn s i
        return s.conclude

def run (s : Machine G P) : Nat → m (Outcome × Machine G P)
  | 0 => return (s.outcome, s)
  | budget + 1 => do
    match ← A.step s with
    | (true, s) => run s budget
    | (false, s) => return (s.outcome, s)

/-! ### Loading -/

/-- the place of the first claimed cell among so many from an address on that must be free -/
def scan (core : Core) (placement : Placement) (address : Nat) : Nat → m (Option Nat)
  | 0 => return none
  | length + 1 =>
    if placement.checks core.size address then do
      let c ← A.read core address
      if c.isEmpty then scan core placement (address + 1) length
      else do
        let place ← A.reduce core address
        return some place
    else scan core placement (address + 1) length

/-- as `Core.firstOccupied?`, up to the address where the code ends -/
def firstOccupied? (core : Core) (placement : Placement) (start length : Nat) : m (Option Nat) := do
  let stop ← A.sum start length
  A.scan core placement start (stop - start)

/-- writes cells at consecutive addresses, the first one `offset` behind `start` -/
def writeFrom (core : Core) (start offset : Nat) : List Cell → m Core
  | [] => return core
  | c :: rest => do
    let address ← A.sum start offset
    let core ← A.write core address c
    writeFrom core start (offset + 1) rest

def place (s : Machine G P) (id : ProgramId) (process : ProcessId) (code : List Cell) (start : Nat) :
    m (Machine G P) := do
  let stamped := code.map (Cell.ownedBy id process)
  let core ← A.writeFrom s.core start 0 stamped
  return { s with core, groups := s.groups ++ [{ id, code := stamped, processes := [A.start start] }] }

def loadAt (s : Machine G P) (id : ProgramId) (process : ProcessId) (code : List Cell) (address : Int) :
    m (Except Refusal (Machine G P)) := do
  match s.checkLoadable id code with
  | .error refusal => return .error refusal
  | .ok () => do
    let start ← A.reduce s.core address
    match ← A.firstOccupied? s.core s.rules.placement start code.length with
    | some place => return .error (.occupied place)
    | none => do
      let s ← A.place s id process code start
      return .ok s

variable [WordSource G]

def drawStart (s : Machine G P) (length : Nat) : Nat → G → m (Except Refusal Nat × G)
  | 0, g => return (.error (.noPlacement s.rules.maxPlacementAttempts), g)
  | attempts + 1, g => do
    A.check (.draw s.core.size)
    match Random.drawBelow? s.core.size g with
    | (none, g) => return (.error .noDraw, g)
    | (some start, g) =>
      match ← A.firstOccupied? s.core s.rules.placement start length with
      | none => return (.ok start, g)
      | some _ => drawStart s length attempts g

def load (s : Machine G P) (id : ProgramId) (process : ProcessId) (code : List Cell) :
    m (Except Refusal Nat × Machine G P) := do
  match s.checkLoadable id code with
  | .error refusal => return (.error refusal, s)
  | .ok () => do
    match ← A.drawStart s code.length s.rules.maxPlacementAttempts s.generator with
    | (.error refusal, generator) => return (.error refusal, { s with generator })
    | (.ok start, generator) => do
      let s ← A.place { s with generator } id process code start
      return (.ok start, s)

/-! ### Requests -/

def perform (s : Machine G P) : Request → m (Reply × Machine G P)
  | .load id process code => do
    match ← A.load s id process code with
    | (.ok start, s) => return (.loadedAt start, s)
    | (.error refusal, s) => return (.refused refusal, s)
  | .loadAt id process code address => do
    match ← A.loadAt s id process code address with
    | .ok s => return (.done, s)
    | .error refusal => return (.refused refusal, s)
  | .start =>
    match s.start with
    | .ok s => return (.done, s)
    | .error refusal => return (.refused refusal, s)
  | .step => do
    let (flag, s) ← A.step s
    return (.goesOn flag, s)
  | .run budget => do
    let (outcome, s) ← A.run s budget
    return (.ended outcome, s)

def replay (s : Machine G P) : List Request → m (List Reply × Machine G P)
  | [] => return ([], s)
  | request :: rest => do
    let (reply, s) ← A.perform s request
    let (replies, s) ← replay s rest
    return (reply :: replies, s)

end Platform

end CoreWar
