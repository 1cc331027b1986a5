/-
Processes by name: the rotation is fair, and no order strikes the wrong process.

In the row of a warrior's processes a place is no identity: a split moves everybody behind it. Here every process gets a
name when it is made, the number of processes made before it. `Roll` keeps the names beside the row, in row order; the
warrior itself obeys as ever (`obeyAll_exact`). `Ledger` is the other side, without a row and without places: from the
deeds of the warrior alone it keeps who was handed out last, how many processes were made, and where each stands.

- `obey_agrees`: roll and ledger agree after every order. A process handed out stands where the ledger says, a jump
  moves the one handed out last, a split makes a new one, and nobody else moves.
- `queue_next`, `queue_split`: seen from the process whose turn it is, the row is a queue. The one handed out goes from
  its head to its end; a new one comes in somewhere, and nobody changes places.
- `wait_in_queue`: whoever stands ahead of a process in the queue is handed out once before it.
- `rotation_law`: the results on every sequence of orders to a newly loaded warrior.
-/
import Mathlib.Data.List.InsertIdx
import Mathlib.Data.List.Nodup
import Mathlib.Logic.Function.Basic
import CoreWar.Warrior

namespace CoreWar

/-! ## Names -/

/-- what an order to a warrior came to; the process handed out is called by its name -/
inductive Deed where
  | handed (name : Nat) (pointer : Int64)
  | sent (target : Int64)
  | added (start : Int64)
  | killed
deriving DecidableEq, Repr

/-- what is answered to the order -/
def Deed.reply : Deed → Option Int64
  | handed _ pointer => some pointer
  | sent _ | added _ | killed => none

/-- a warrior and the names of its processes, in row order -/
structure Roll where
  warrior : Warrior
  names : List Nat
deriving DecidableEq, Repr

namespace Roll

/-- a newly loaded warrior, whose only process is named 0 -/
def load (id : ProgramId) (code : List Cell) (start : Int64) : Roll := ⟨.load id code start, [0]⟩

/-- carries out an order; a new process gets the first name that is free, at its place in the row -/
def obey (m : Roll) : Warrior.Order → Deed × Roll
  | .next =>
    (.handed (m.names.getD m.warrior.rotation.cursor 0) m.warrior.next.1, { m with warrior := m.warrior.next.2 })
  | .jump target => (.sent target, { m with warrior := m.warrior.jump target })
  | .split start =>
    (.added start,
     { warrior := m.warrior.split start
       names := m.names.insertIdx (m.warrior.rotation.last + 1) m.names.length })
  | .kill => (.killed, { m with warrior := m.warrior.kill })

/-- the deeds for a sequence of orders, and the roll after them -/
def obeyAll (m : Roll) : List Warrior.Order → List Deed × Roll
  | [] => ([], m)
  | order :: rest =>
    let (deed, m) := m.obey order
    let (deeds, m) := m.obeyAll rest
    (deed :: deeds, m)

end Roll

@[simp] theorem Roll.obeyAll_cons (m : Roll) (order : Warrior.Order) (rest : List Warrior.Order) :
    m.obeyAll (order :: rest) = ((m.obey order).1 :: ((m.obey order).2.obeyAll rest).1,
      ((m.obey order).2.obeyAll rest).2) := rfl

/-- the answers to a sequence of orders, and the warrior after them -/
def Warrior.obeyAll (w : Warrior) : List Warrior.Order → List (Option Int64) × Warrior
  | [] => ([], w)
  | order :: rest =>
    let (reply, w) := w.obey order
    let (replies, w) := w.obeyAll rest
    (reply :: replies, w)

/-- **Names change nothing.** Without the names, the deeds are the answers of the warrior. -/
theorem Roll.obeyAll_exact (m : Roll) (orders : List Warrior.Order) :
    m.warrior.obeyAll orders = ((m.obeyAll orders).1.map Deed.reply, (m.obeyAll orders).2.warrior) := by
  induction orders generalizing m with
  | nil => rfl
  | cons order rest ih =>
    have hfirst : m.warrior.obey order = ((m.obey order).1.reply, (m.obey order).2.warrior) := by
      cases order <;> rfl
    simp only [Warrior.obeyAll, obeyAll, hfirst, ih, List.map_cons]

/-! ## The ledger -/

/-- what deeds tell of the processes: who was handed out last (before anybody was, the first one), how many were made,
and where each stands -/
structure Ledger where
  latest : Nat
  count : Nat
  pointer : Nat → Int64

namespace Ledger

/-- one process, which stands at `start` -/
def load (start : Int64) : Ledger := ⟨0, 1, fun _ => start⟩

/-- a process handed out goes one further, one that is sent stands at the target, a new one at its start -/
def record (l : Ledger) : Deed → Ledger
  | .handed name pointer => { l with latest := name, pointer := Function.update l.pointer name (pointer + 1) }
  | .sent target => { l with pointer := Function.update l.pointer l.latest target }
  | .added start => { l with count := l.count + 1, pointer := Function.update l.pointer l.count start }
  | .killed => l

/-- the ledger of a warrior loaded at `start`, after its deeds -/
def ofDeeds (start : Int64) (deeds : List Deed) : Ledger := deeds.foldl record (load start)

end Ledger

/-- how often the process of this name was handed out -/
def handings (name : Nat) (deeds : List Deed) : Nat :=
  deeds.countP fun
    | .handed other _ => other = name
    | _ => false

@[simp] theorem handings_nil (q : Nat) : handings q [] = 0 := rfl

theorem handings_handed (q p : Nat) (x : Int64) (deeds : List Deed) :
    handings q (.handed p x :: deeds) = (if p = q then 1 else 0) + handings q deeds := by
  simp only [handings, List.countP_cons, decide_eq_true_eq]
  omega

/-! ## Roll and ledger agree -/

/-- the roll shows what the ledger tells -/
structure Roll.Agrees (m : Roll) (l : Ledger) : Prop where
  /-- nobody is lost, and nobody is there twice -/
  names : m.names.Perm (List.range l.count)
  row : m.warrior.processes = m.names.map l.pointer
  latest : m.names[m.warrior.rotation.last]? = some l.latest
  cursor_lt : m.warrior.rotation.cursor < m.warrior.rotation.size

namespace Roll

theorem agrees_load (id : ProgramId) (code : List Cell) (start : Int64) : Agrees (load id code start) (.load start) :=
  ⟨List.Perm.refl _, rfl, rfl, Nat.zero_lt_one⟩

theorem Agrees.nodup {m : Roll} {l : Ledger} (h : Agrees m l) : m.names.Nodup :=
  h.names.nodup_iff.2 List.nodup_range

theorem Agrees.length {m : Roll} {l : Ledger} (h : Agrees m l) : m.names.length = l.count := by
  rw [h.names.length_eq, List.length_range]

theorem Agrees.size {m : Roll} {l : Ledger} (h : Agrees m l) : m.warrior.rotation.size = m.names.length := by
  have hrow := congrArg List.length h.row
  rwa [Warrior.processes, Rotation.length_processes, List.length_map] at hrow

/-- a new pointer for one process, seen by name and seen in the row -/
theorem map_update_pointer {names : List Nat} {i p : Nat} (hnodup : names.Nodup) (hi : names[i]? = some p)
    (f : Nat → Int64) (x : Int64) : names.map (Function.update f p x) = (names.map f).set i x := by
  obtain ⟨hlt, rfl⟩ := List.getElem?_eq_some_iff.1 hi
  rw [hnodup.map_update, if_pos (List.getElem_mem hlt), hnodup.idxOf_getElem i hlt]

/-- the process at the cursor is handed out: it is the one that stands where its pointer says -/
theorem Agrees.handed {m : Roll} {l : Ledger} (h : Agrees m l) :
    ∃ p, m.names[m.warrior.rotation.cursor]? = some p ∧ p < l.count ∧
      (m.obey .next).1 = .handed p (l.pointer p) ∧
      (m.obey .next).2.warrior.processes = m.warrior.processes.set m.warrior.rotation.cursor (l.pointer p + 1) := by
  have hlt : m.warrior.rotation.cursor < m.names.length := h.size ▸ h.cursor_lt
  have hget := (Rotation.next_eq m.warrior.rotation h.cursor_lt).1
  have hname := List.getElem?_eq_getElem hlt
  have hpointer : m.warrior.rotation.next.1 = l.pointer m.names[m.warrior.rotation.cursor] := by
    have hsome : m.warrior.processes[m.warrior.rotation.cursor]? = some m.warrior.rotation.next.1 := hget
    rw [h.row, List.getElem?_map, hname] at hsome
    exact (Option.some.inj hsome).symm
  refine ⟨m.names[m.warrior.rotation.cursor], hname, ?_, ?_, ?_⟩
  · exact List.mem_range.1 (h.names.mem_iff.1 (List.getElem_mem hlt))
  · simp only [obey, Warrior.next, List.getD_eq_getElem?_getD, hname, hpointer, Option.getD_some]
  · rw [← hpointer]
    exact Rotation.processes_next h.cursor_lt

/-- roll and ledger keep agreeing, and a process handed out was where the ledger has it -/
theorem obey_agrees {m : Roll} {l : Ledger} (h : Agrees m l) (order : Warrior.Order) :
    Agrees (m.obey order).2 (l.record (m.obey order).1) ∧
      ∀ p x, (m.obey order).1 = .handed p x → p < l.count ∧ x = l.pointer p := by
  cases order with
  | next =>
    obtain ⟨p, hname, hp, hdeed, hrow⟩ := h.handed
    obtain ⟨-, -, hlast, hcursor⟩ := Rotation.next_eq m.warrior.rotation h.cursor_lt
    refine ⟨?_, fun q x hq => ?_⟩
    · rw [hdeed]
      refine ⟨h.names, ?_, ?_, ?_⟩
      · rw [hrow, h.row]
        exact (map_update_pointer h.nodup hname l.pointer _).symm
      · simp only [obey, Warrior.next, hlast]
        exact hname
      · simp only [obey, Warrior.next, hcursor, Rotation.size_next]
        exact Nat.mod_lt _ (Nat.zero_lt_of_lt h.cursor_lt)
    · rw [hdeed] at hq
      cases hq
      exact ⟨hp, rfl⟩
  | jump target =>
    refine ⟨⟨h.names, ?_, h.latest, h.cursor_lt⟩, fun q x hq => by cases hq⟩
    have hrow : (m.obey (.jump target)).2.warrior.processes =
        m.warrior.processes.set m.warrior.rotation.last target := Rotation.processes_jump target m.warrior.rotation
    rw [hrow, h.row]
    exact (map_update_pointer h.nodup h.latest l.pointer target).symm
  | split start =>
    have hlast : m.warrior.rotation.last + 1 ≤ m.names.length := h.size ▸ m.warrior.rotation.last_lt_size
    have hnew : l.count ∉ m.names := by
      rw [h.names.mem_iff, List.mem_range]
      exact Nat.lt_irrefl _
    refine ⟨⟨?_, ?_, ?_, ?_⟩, fun q x hq => by cases hq⟩
    · simp only [obey, Ledger.record, h.length, List.range_succ]
      exact (List.perm_insertIdx _ _ hlast).trans
        ((h.names.cons _).trans (List.perm_append_singleton _ _).symm)
    · have hrow : (m.obey (.split start)).2.warrior.processes =
          m.warrior.processes.insertIdx (m.warrior.rotation.last + 1) start :=
        Rotation.processes_split start m.warrior.rotation
      rw [hrow, h.row]
      simp only [obey, Ledger.record, h.length, List.map_insertIdx, Function.update_self]
      rw [h.nodup.map_update, if_neg hnew]
    · simp only [obey, Ledger.record]
      exact (List.getElem?_insertIdx_of_lt (Nat.lt_succ_self _)).trans h.latest
    · exact Nat.lt_succ_of_lt h.cursor_lt
  | kill => exact ⟨⟨h.names, h.row, h.latest, h.cursor_lt⟩, fun q x hq => by cases hq⟩

theorem obeyAll_agrees {m : Roll} {l : Ledger} (h : Agrees m l) (orders : List Warrior.Order) :
    Agrees (m.obeyAll orders).2 ((m.obeyAll orders).1.foldl Ledger.record l) := by
  induction orders generalizing m l with
  | nil => exact h
  | cons order rest ih => exact ih (obey_agrees h order).1

/-! ## The queue -/

/-- the names in the order in which their processes would be handed out now -/
def queue (m : Roll) : List Nat :=
  m.names.drop m.warrior.rotation.cursor ++ m.names.take m.warrior.rotation.cursor

/-- the process handed out goes from the head of the queue to its end -/
theorem queue_next {m : Roll} {l : Ledger} (h : Agrees m l) :
    ∃ p rest, m.queue = p :: rest ∧ (m.obey .next).1 = .handed p (l.pointer p) ∧
      (m.obey .next).2.queue = rest ++ [p] := by
  obtain ⟨p, hname, -, hdeed, -⟩ := h.handed
  obtain ⟨-, -, -, hcursor⟩ := Rotation.next_eq m.warrior.rotation h.cursor_lt
  obtain ⟨hlt, hp⟩ := List.getElem?_eq_some_iff.1 hname
  refine ⟨p, m.names.drop (m.warrior.rotation.cursor + 1) ++ m.names.take m.warrior.rotation.cursor, ?_, hdeed, ?_⟩
  · rw [queue, List.drop_eq_getElem_cons hlt, hp, List.cons_append]
  · have hqueue : (m.obey .next).2.queue =
        m.names.drop ((m.warrior.rotation.cursor + 1) % m.warrior.rotation.size) ++
          m.names.take ((m.warrior.rotation.cursor + 1) % m.warrior.rotation.size) := by
      simp only [queue, obey, Warrior.next, hcursor]
    rw [hqueue, h.size, List.append_assoc, ← hp, List.take_append_getElem hlt]
    rcases Nat.lt_or_ge (m.warrior.rotation.cursor + 1) m.names.length with hin | hout
    · rw [Nat.mod_eq_of_lt hin]
    · have hend : m.warrior.rotation.cursor + 1 = m.names.length := by omega
      rw [hend, Nat.mod_self]
      simp

/-- a new process comes into the queue somewhere -/
theorem queue_split {m : Roll} {l : Ledger} (h : Agrees m l) (start : Int64) :
    ∃ front back, m.queue = front ++ back ∧ (m.obey (.split start)).2.queue = front ++ l.count :: back := by
  have hlast : m.warrior.rotation.last + 1 ≤ m.names.length := h.size ▸ m.warrior.rotation.last_lt_size
  have hqueue : (m.obey (.split start)).2.queue =
      (m.names.insertIdx (m.warrior.rotation.last + 1) l.count).drop m.warrior.rotation.cursor ++
        (m.names.insertIdx (m.warrior.rotation.last + 1) l.count).take m.warrior.rotation.cursor := by
    simp only [queue, obey, Warrior.split, h.length]
    rfl
  have hinsert : m.names.insertIdx (m.warrior.rotation.last + 1) l.count =
      m.names.take (m.warrior.rotation.last + 1) ++ l.count :: m.names.drop (m.warrior.rotation.last + 1) := by
    have happend := Rotation.insertIdx_length_append (m.names.take (m.warrior.rotation.last + 1))
      (m.names.drop (m.warrior.rotation.last + 1)) l.count
    rwa [List.take_append_drop, List.length_take_of_le hlast] at happend
  rw [hqueue, hinsert]
  cases hwrapped : m.warrior.rotation.wrapped with
  | true =>
    -- the turn is the front's, so the queue is the row
    have hcursor : m.warrior.rotation.cursor = 0 := by simp [Rotation.cursor, hwrapped]
    exact ⟨m.names.take (m.warrior.rotation.last + 1), m.names.drop (m.warrior.rotation.last + 1),
      by simp [queue, hcursor], by simp [hcursor]⟩
  | false =>
    -- the turn is that of the process behind the latest, and now the new one's
    have hcursor : m.warrior.rotation.cursor = m.warrior.rotation.last + 1 := by
      simp [Rotation.cursor, Rotation.last, hwrapped]
    refine ⟨[], m.queue, rfl, ?_⟩
    have hfront : (m.names.take (m.warrior.rotation.last + 1)).length = m.warrior.rotation.last + 1 :=
      List.length_take_of_le hlast
    simp only [queue, hcursor, List.drop_left' hfront, List.take_left' hfront, List.nil_append, List.cons_append]

theorem queue_perm (m : Roll) : m.queue.Perm m.names := by
  calc m.queue.Perm (m.names.take m.warrior.rotation.cursor ++ m.names.drop m.warrior.rotation.cursor) :=
        List.perm_append_comm
    _ = m.names := List.take_append_drop _ _

theorem Agrees.queue_nodup {m : Roll} {l : Ledger} (h : Agrees m l) : m.queue.Nodup :=
  m.queue_perm.nodup_iff.2 h.nodup

theorem Agrees.mem_queue {m : Roll} {l : Ledger} (h : Agrees m l) {q : Nat} : q ∈ m.queue ↔ q < l.count := by
  rw [m.queue_perm.mem_iff, h.names.mem_iff, List.mem_range]

/-- where a new name comes into a queue, it is either ahead of `p` or behind it, and nobody else changes sides -/
theorem insert_in_queue {front back ahead behind : List Nat} {p : Nat} (h : front ++ back = ahead ++ p :: behind)
    (new : Nat) :
    ∃ ahead' behind', front ++ new :: back = ahead' ++ p :: behind' ∧
      ∀ q, q ≠ new → ahead'.count q = ahead.count q := by
  rcases List.append_eq_append_iff.1 h with ⟨rest, rfl, rfl⟩ | ⟨rest, rfl, hrest⟩
  · refine ⟨front ++ new :: rest, behind, by simp, fun q hq => ?_⟩
    rw [List.count_append, List.count_append, List.count_cons_of_ne (Ne.symm hq)]
  · rcases rest with _ | ⟨r, rest⟩
    · rw [List.nil_append] at hrest
      subst hrest
      refine ⟨ahead ++ [new], behind, by simp, fun q hq => ?_⟩
      rw [List.count_append, List.count_cons_of_ne (Ne.symm hq), List.count_nil, Nat.add_zero]
    · obtain ⟨rfl, rfl⟩ := List.cons.inj hrest
      exact ⟨ahead, rest ++ new :: back, by simp, fun q _ => rfl⟩

/-- whoever leaves the head of a queue, unless it is `p`, was ahead of `p` -/
theorem head_ahead {others ahead behind : List Nat} {r p : Nat} (h : r :: others = ahead ++ p :: behind) (hr : r ≠ p) :
    ∃ ahead', ahead = r :: ahead' ∧ others = ahead' ++ p :: behind := by
  cases ahead with
  | nil =>
    rw [List.nil_append] at h
    exact absurd (List.cons.inj h).1 hr
  | cons a ahead' =>
    obtain ⟨rfl, hrest⟩ := List.cons.inj h
    exact ⟨ahead', rfl, hrest⟩

/-- **Waiting.** While a process waits for its turn, whoever is ahead of it in the queue leaves by being handed out,
once; whoever is made meanwhile comes in once. -/
theorem wait_in_queue {m : Roll} {l : Ledger} (h : Agrees m l) (orders : List Warrior.Order) {p : Nat}
    {ahead behind : List Nat} (hqueue : m.queue = ahead ++ p :: behind)
    (hwait : handings p (m.obeyAll orders).1 = 0) :
    ∃ ahead' behind', (m.obeyAll orders).2.queue = ahead' ++ p :: behind' ∧
      (∀ q < l.count, ahead'.count q + handings q (m.obeyAll orders).1 = ahead.count q) ∧
      ∀ q, l.count ≤ q → ahead'.count q + handings q (m.obeyAll orders).1 ≤ 1 := by
  induction orders generalizing m l ahead behind with
  | nil =>
    refine ⟨ahead, behind, hqueue, fun q _ => rfl, fun q hq => ?_⟩
    have hnot : q ∉ ahead := by
      intro hmem
      have hlt := h.mem_queue.1 (hqueue ▸ List.mem_append_left _ hmem)
      omega
    simp [obeyAll, handings, List.count_eq_zero_of_not_mem hnot]
  | cons order rest ih =>
    have hagrees := (obey_agrees h order).1
    cases order with
    | next =>
      obtain ⟨r, others, hhead, hdeed, htail⟩ := queue_next h
      have hdeeds : (m.obeyAll (.next :: rest)).1 = .handed r (l.pointer r) :: ((m.obey .next).2.obeyAll rest).1 := by
        rw [obeyAll_cons, hdeed]
      rw [hdeeds, handings_handed] at hwait
      have hr : r ≠ p := by
        rintro rfl
        simp at hwait
      rw [if_neg hr, Nat.zero_add] at hwait
      obtain ⟨ahead₀, rfl, hothers⟩ := head_ahead (hhead.symm.trans hqueue) hr
      have hnext : (m.obey .next).2.queue = ahead₀ ++ p :: (behind ++ [r]) := by
        rw [htail, hothers, List.append_assoc, List.cons_append]
      rw [hdeed] at hagrees
      obtain ⟨ahead', behind', hlater, hold, hnew⟩ := ih hagrees hnext hwait
      have hrlt : r < l.count := h.mem_queue.1 (by rw [hhead]; exact List.mem_cons_self)
      refine ⟨ahead', behind', hlater, ?_, ?_⟩
      · intro q hq
        have hcount := hold q hq
        rw [hdeeds, handings_handed, List.count_cons]
        simp only [beq_iff_eq]
        omega
      · intro q hq
        have hcount := hnew q hq
        rw [hdeeds, handings_handed, if_neg (by omega)]
        omega
    | jump target => exact ih hagrees hqueue hwait
    | split start =>
      obtain ⟨front, back, hfront, hsplit⟩ := queue_split h start
      obtain ⟨ahead₁, behind₁, hqueue₁, hsame⟩ := insert_in_queue (hfront.symm.trans hqueue) l.count
      rw [← hsplit] at hqueue₁
      obtain ⟨ahead', behind', hlater, hold, hnew⟩ := ih hagrees hqueue₁ hwait
      refine ⟨ahead', behind', hlater, ?_, ?_⟩
      · intro q hq
        exact (hold q (Nat.lt_succ_of_lt hq)).trans (hsame q (Nat.ne_of_lt hq))
      · intro q hq
        rcases Nat.lt_or_eq_of_le hq with hlt | rfl
        · exact hnew q hlt
        · have hnodup : ahead₁.Nodup :=
            (List.sublist_append_left ahead₁ (p :: behind₁)).nodup (hqueue₁ ▸ hagrees.queue_nodup)
          have hone : ahead₁.count l.count ≤ 1 := List.nodup_iff_count_le_one.1 hnodup l.count
          exact Nat.le_trans (Nat.le_of_eq (hold l.count (Nat.lt_succ_self _))) hone
    | kill => exact ih hagrees hqueue hwait

/-- between two turns of a process, everybody who was there at the first has one turn, and everybody made since at most
one -/
theorem turns_between {m : Roll} {l : Ledger} (h : Agrees m l) {p : Nat} {x : Int64}
    (hfirst : (m.obey .next).1 = .handed p x) (orders : List Warrior.Order)
    (hwait : handings p ((m.obey .next).2.obeyAll orders).1 = 0)
    {y : Int64} (hsecond : (((m.obey .next).2.obeyAll orders).2.obey .next).1 = .handed p y) :
    (∀ q < l.count, q ≠ p → handings q ((m.obey .next).2.obeyAll orders).1 = 1) ∧
      ∀ q, l.count ≤ q → handings q ((m.obey .next).2.obeyAll orders).1 ≤ 1 := by
  obtain ⟨r, others, hhead, hdeed, htail⟩ := queue_next h
  rw [hfirst] at hdeed
  obtain ⟨rfl, -⟩ := Deed.handed.inj hdeed
  have hagrees := (obey_agrees h .next).1
  rw [hfirst] at hagrees
  obtain ⟨ahead, behind, hlater, hold, hnew⟩ := wait_in_queue hagrees orders htail hwait
  -- at its second turn the process is at the head again, so nobody is ahead of it any more
  have hagrees₂ := obeyAll_agrees hagrees orders
  obtain ⟨r, others₂, hhead₂, hdeed₂, -⟩ := queue_next hagrees₂
  rw [hsecond] at hdeed₂
  obtain ⟨rfl, -⟩ := Deed.handed.inj hdeed₂
  have hahead : ahead = [] := by
    rcases ahead with _ | ⟨a, ahead⟩
    · rfl
    · have hnodup := hagrees₂.queue_nodup
      rw [hlater] at hhead₂ hnodup
      obtain ⟨rfl, -⟩ := List.cons.inj hhead₂
      simp at hnodup
  subst hahead
  have hnodup := h.queue_nodup
  rw [hhead] at hnodup
  refine ⟨?_, ?_⟩
  · intro q hq hne
    have hmem : q ∈ others := by
      have hin := h.mem_queue.2 hq
      rw [hhead] at hin
      exact (List.mem_cons.1 hin).resolve_left hne
    have hcount := hold q hq
    rw [List.count_nil, Nat.zero_add] at hcount
    rw [hcount]
    exact List.count_eq_one_of_mem (List.nodup_cons.1 hnodup).2 hmem
  · intro q hq
    have hcount := hnew q hq
    omega

/-! ## Main result -/

/-- where the deeds are cut, the orders can be -/
theorem obeyAll_eq_append {m : Roll} {orders : List Warrior.Order} {deeds deeds' : List Deed}
    (h : (m.obeyAll orders).1 = deeds ++ deeds') :
    ∃ first rest, orders = first ++ rest ∧ (m.obeyAll first).1 = deeds ∧
      ((m.obeyAll first).2.obeyAll rest).1 = deeds' := by
  induction deeds generalizing m orders with
  | nil => exact ⟨[], orders, rfl, rfl, h⟩
  | cons deed deeds ih =>
    cases orders with
    | nil => simp [obeyAll] at h
    | cons order orders =>
      rw [obeyAll_cons, List.cons_append, List.cons.injEq] at h
      obtain ⟨hdeed, htail⟩ := h
      obtain ⟨first, rest, rfl, hfirst, hrest⟩ := ih htail
      exact ⟨order :: first, rest, rfl, by rw [obeyAll_cons, hfirst, hdeed], hrest⟩

/-- a process is handed out on the order `next` only -/
theorem obeyAll_eq_handed {m : Roll} {orders : List Warrior.Order} {p : Nat} {x : Int64} {deeds : List Deed}
    (h : (m.obeyAll orders).1 = .handed p x :: deeds) :
    ∃ rest, orders = .next :: rest ∧ (m.obey .next).1 = .handed p x ∧ ((m.obey .next).2.obeyAll rest).1 = deeds := by
  cases orders with
  | nil => simp [obeyAll] at h
  | cons order rest =>
    obtain ⟨hdeed, htail⟩ := List.cons.inj h
    cases order with
    | next => exact ⟨rest, rfl, hdeed, htail⟩
    | jump target => cases hdeed
    | split start => cases hdeed
    | kill => cases hdeed

/-- **Rotation.** Load a warrior and give it any orders; call its processes by their names. The answers are those of the
warrior without names, and the ledger, which is kept from the deeds alone, knows all about the row:
- whoever is handed out stands where its last own deed left it;
- between two turns of a process, everybody else who was there at the first is handed out once, and everybody made since
  at most once;
- the row holds each process made, once, where the ledger has it;
- a jump moves the process handed out last, and nobody else. -/
theorem rotation_law (id : ProgramId) (code : List Cell) (start : Int64) (orders : List Warrior.Order) :
    let deeds := ((load id code start).obeyAll orders).1
    let m := ((load id code start).obeyAll orders).2
    let l := Ledger.ofDeeds start deeds
    (Warrior.load id code start).obeyAll orders = (deeds.map Deed.reply, m.warrior) ∧
    (∀ before p x after, deeds = before ++ .handed p x :: after →
      p < (Ledger.ofDeeds start before).count ∧ x = (Ledger.ofDeeds start before).pointer p) ∧
    (∀ before p x between y after, deeds = before ++ .handed p x :: (between ++ .handed p y :: after) →
      handings p between = 0 →
      (∀ q < (Ledger.ofDeeds start before).count, q ≠ p → handings q between = 1) ∧
        ∀ q, (Ledger.ofDeeds start before).count ≤ q → handings q between ≤ 1) ∧
    (m.names.Perm (List.range l.count) ∧ m.warrior.processes = m.names.map l.pointer) ∧
    ∀ target, (m.warrior.jump target).processes = m.names.map (Function.update l.pointer l.latest target) := by
  intro deeds m l
  have hagrees : ∀ os, Agrees ((load id code start).obeyAll os).2
      (Ledger.ofDeeds start ((load id code start).obeyAll os).1) := obeyAll_agrees (agrees_load id code start)
  refine ⟨obeyAll_exact (load id code start) orders, ?_, ?_, ⟨(hagrees orders).names, (hagrees orders).row⟩, ?_⟩
  · intro before p x after hcut
    obtain ⟨first, rest, rfl, rfl, hrest⟩ := obeyAll_eq_append hcut
    obtain ⟨later, rfl, hdeed, -⟩ := obeyAll_eq_handed hrest
    exact (obey_agrees (hagrees first) .next).2 p x hdeed
  · intro before p x between y after hcut hwait
    obtain ⟨first, rest, rfl, rfl, hrest⟩ := obeyAll_eq_append hcut
    obtain ⟨later, rfl, hfirst, hlater⟩ := obeyAll_eq_handed hrest
    obtain ⟨middle, last, rfl, rfl, hlast⟩ := obeyAll_eq_append hlater
    obtain ⟨_, rfl, hsecond, -⟩ := obeyAll_eq_handed hlast
    exact turns_between (hagrees first) hfirst middle hwait hsecond
  · intro target
    exact (obey_agrees (hagrees orders) (.jump target)).1.row

/-- the first process splits before the turn is back at it, and both are sent elsewhere -/
example : ((load 0 [] 0).obeyAll [.next, .split 50, .jump 7, .next, .next, .jump 9, .next, .next]).1 =
    [.handed 0 0, .added 50, .sent 7, .handed 0 7, .handed 1 50, .sent 9, .handed 0 8, .handed 1 9] := by
  decide

end Roll

end CoreWar
