/-
The rotation of a program's processes.

A process is a pointer into the core, kept as a raw 64-bit number that is reduced only when the core is read. The
processes stand in a row, split at the one that was handed out last, so that handing out the next, sending the last one
elsewhere and adding one behind it touch only the split. When the row is through, the turn goes back to its front; a
process added after that, but before the front has had its turn, still comes last in the row.

`Rotation.processes` is the whole row, `last` and `cursor` are the places in it of the process handed out last and of
the one that is next. The lemmas below say what each operation does to the row and to the two places.
-/

namespace CoreWar

structure Rotation where
  /-- the process handed out last; before any was, the first one -/
  latest : Int64
  /-- the processes in front of `latest`, nearest first -/
  earlier : List Int64 := []
  /-- the processes behind `latest`, nearest first -/
  later : List Int64 := []
  /-- whether the turn is the front's, and not that of the process behind `latest` -/
  wrapped : Bool := true
  /-- the number of processes -/
  size : Nat := 1
  size_eq : size = earlier.length + 1 + later.length := by rfl
deriving DecidableEq, Repr

namespace Rotation

/-- one process at `start` -/
def single (start : Int64) : Rotation := { latest := start }

def processes (r : Rotation) : List Int64 := r.earlier.reverse ++ r.latest :: r.later

/-- the place of the process handed out last -/
def last (r : Rotation) : Nat := r.earlier.length

/-- the place of the process whose turn it is -/
def cursor (r : Rotation) : Nat := if r.wrapped then 0 else r.earlier.length + 1

/-- walks back from a process and those behind it to the front of the row: the front, and all behind it -/
def rewind (p : Int64) (later : List Int64) : List Int64 → Int64 × List Int64
  | [] => (p, later)
  | q :: earlier => rewind q (p :: later) earlier

theorem rewind_eq (p : Int64) (later earlier : List Int64) :
    (rewind p later earlier).1 :: (rewind p later earlier).2 = earlier.reverse ++ p :: later := by
  induction earlier generalizing p later with
  | nil => rfl
  | cons q earlier ih => simp [rewind, ih]

theorem length_rewind (p : Int64) (later earlier : List Int64) :
    (rewind p later earlier).2.length = earlier.length + later.length := by
  have h := congrArg List.length (rewind_eq p later earlier)
  simp only [List.length_append, List.length_reverse, List.length_cons] at h
  omega

/-- hands out the process whose turn it is, moves it one further and passes the turn on -/
def next (r : Rotation) : Int64 × Rotation :=
  match hlater : r.later, r.wrapped with
  | p :: later, false =>
    (p,
     { latest := p + 1
       earlier := r.latest :: r.earlier
       later
       wrapped := later.isEmpty
       size := r.size
       size_eq := by rw [r.size_eq, hlater, List.length_cons, List.length_cons]; omega })
  | _, _ =>
    let front := rewind r.latest r.later r.earlier
    (front.1,
     { latest := front.1 + 1
       later := front.2
       wrapped := front.2.isEmpty
       size := r.size
       size_eq := by rw [r.size_eq, length_rewind, List.length_nil]; omega })

/-- sends the process handed out last to `target` -/
def jump (target : Int64) (r : Rotation) : Rotation := { r with latest := target }

/-- adds a process at `start` behind the one handed out last -/
def split (start : Int64) (r : Rotation) : Rotation :=
  { r with
    later := start :: r.later
    size := r.size + 1
    size_eq := by rw [r.size_eq, List.length_cons]; omega }

/-! ## What the operations do to the row -/

@[simp] theorem length_processes (r : Rotation) : r.processes.length = r.size := by
  simp only [r.size_eq, processes, List.length_append, List.length_reverse, List.length_cons]
  omega

theorem last_lt_size (r : Rotation) : r.last < r.size := by
  simp only [last, r.size_eq]
  omega

@[simp] theorem size_next (r : Rotation) : r.next.2.size = r.size := by
  simp only [next]
  split <;> rfl

@[simp] theorem getElem?_processes_last (r : Rotation) : r.processes[r.last]? = some r.latest := by
  simp [processes, last]

@[simp] theorem processes_single (start : Int64) : (single start).processes = [start] := rfl

@[simp] theorem processes_jump (target : Int64) (r : Rotation) :
    (r.jump target).processes = r.processes.set r.last target := by
  simp [jump, processes, last]

theorem insertIdx_length_append {α : Type} (front back : List α) (p : α) :
    (front ++ back).insertIdx front.length p = front ++ p :: back := by
  induction front with
  | nil => simp
  | cons q front ih => simp [ih]

@[simp] theorem processes_split (start : Int64) (r : Rotation) :
    (r.split start).processes = r.processes.insertIdx (r.last + 1) start := by
  have h := insertIdx_length_append (r.earlier.reverse ++ [r.latest]) r.later start
  simp only [List.length_append, List.length_reverse, List.length_singleton, List.append_assoc,
    List.singleton_append] at h
  exact h.symm

theorem modify_length_append (front back : List Int64) (p : Int64) (f : Int64 → Int64) :
    (front ++ p :: back).modify front.length f = front ++ f p :: back := by
  induction front with
  | nil => rfl
  | cons q front ih => simp [ih]

/-- the process handed out is the one at the cursor, and it alone moves; the cursor is then the place of the process
handed out last, and passes on by one, from the end of the row to its front -/
theorem next_eq (r : Rotation) (h : r.cursor < r.size) :
    r.processes[r.cursor]? = some r.next.1 ∧ r.next.2.processes = r.processes.modify r.cursor (· + 1) ∧
      r.next.2.last = r.cursor ∧ r.next.2.cursor = (r.cursor + 1) % r.size := by
  obtain ⟨latest, earlier, later, wrapped, size, size_eq⟩ := r
  subst size_eq
  cases wrapped with
  | true =>
    -- the turn goes back to the front of the row
    have hrow := rewind_eq latest later earlier
    have hsize := length_rewind latest later earlier
    rcases hfront : rewind latest later earlier with ⟨front, behind⟩
    rw [hfront] at hrow hsize
    simp only [next, processes, cursor, last, if_true, ← hrow, hfront]
    refine ⟨rfl, rfl, rfl, ?_⟩
    cases behind with
    | nil => simp [show earlier.length + 1 + later.length = 1 by simp at hsize; omega]
    | cons q behind =>
      simp only [List.length_cons] at hsize
      rw [Nat.mod_eq_of_lt (by omega)]
      rfl
  | false =>
    cases later with
    | nil => simp [cursor] at h
    | cons p later =>
      have hmod := modify_length_append (earlier.reverse ++ [latest]) later p (· + 1)
      simp only [List.length_append, List.length_reverse, List.length_singleton, List.append_assoc,
        List.singleton_append] at hmod
      refine ⟨?_, ?_, rfl, ?_⟩
      · simp [next, processes, cursor]
      · simpa [next, processes, cursor] using hmod.symm
      · cases later with
        | nil => simp [next, cursor]
        | cons q later =>
          simp only [next, cursor, List.length_cons, List.isEmpty_cons, Bool.false_eq_true, if_false]
          rw [Nat.mod_eq_of_lt (by omega)]

/-- the row after a process was handed out -/
theorem processes_next {r : Rotation} (h : r.cursor < r.size) :
    r.next.2.processes = r.processes.set r.cursor (r.next.1 + 1) := by
  obtain ⟨hget, hrow, -, -⟩ := r.next_eq h
  rw [hrow, List.modify_eq_set, hget, Option.getD_some]

end Rotation

end CoreWar
