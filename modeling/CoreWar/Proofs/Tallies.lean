/-
Tallies: what a count of ids says.

Ids are counted from the back of the sorted list, so an id that comes to the counts is at most the first id counted: it is
counted once more there, or stands in front of all others with a count of one.

- `Tally.Counts`: the counts of given ids; `Tally.Counts.add`: kept by one more id; `tally_counts`: of all ids.
- `ascendingIds_of_nodup`: of ids that all differ, each is listed once.
-/
import CoreWar.Census

namespace CoreWar

/-- the counts of `ids`: each id that occurs stands there once, in ascending order, with how often it occurs -/
structure Tally.Counts (ids : List ProgramId) (t : Tally) : Prop where
  ascending : t.Pairwise fun p q => p.1 < q.1
  mem_iff : ∀ id n, (id, n) ∈ t ↔ 0 < n ∧ n = ids.count id

theorem Tally.Counts.id_mem_iff {ids : List ProgramId} {t : Tally} (h : t.Counts ids) (id : ProgramId) :
    id ∈ t.map (·.1) ↔ id ∈ ids := by
  rw [List.mem_map]
  constructor
  · rintro ⟨⟨id, n⟩, hmem, rfl⟩
    obtain ⟨hpos, hcount⟩ := (h.mem_iff _ _).1 hmem
    exact List.count_pos_iff.1 (hcount ▸ hpos)
  · intro hmem
    exact ⟨(id, ids.count id), (h.mem_iff _ _).2 ⟨List.count_pos_iff.2 hmem, rfl⟩, rfl⟩

theorem Tally.counts_nil : Tally.Counts [] [] := by
  refine ⟨List.Pairwise.nil, ?_⟩
  intro id n
  rw [List.count_nil]
  constructor
  · intro hmem
    cases hmem
  · rintro ⟨hpos, rfl⟩
    exact absurd hpos (Nat.lt_irrefl 0)

/-- an id that has not been counted yet, and stands in front of the counted ones -/
theorem Tally.Counts.cons {ids : List ProgramId} {t : Tally} (h : t.Counts ids) {id : ProgramId}
    (hlt : ∀ other ∈ ids, id < other) : Tally.Counts (id :: ids) ((id, 1) :: t) := by
  have hfirst : ∀ entry ∈ t, id < entry.1 :=
    fun entry hmem => hlt entry.1 ((h.id_mem_iff entry.1).1 (List.mem_map_of_mem hmem))
  have hnew : ids.count id = 0 := List.count_eq_zero.2 fun hmem => Nat.lt_irrefl id (hlt id hmem)
  refine ⟨List.pairwise_cons.2 ⟨hfirst, h.ascending⟩, ?_⟩
  intro other n
  rw [List.mem_cons, Prod.mk.injEq, h.mem_iff]
  by_cases heq : other = id
  · subst heq
    rw [List.count_cons_self, hnew]
    simp only [true_and]
    omega
  · rw [List.count_cons_of_ne (Ne.symm heq)]
    simp [heq]

/-- one more of the first counted id -/
theorem Tally.Counts.again {ids : List ProgramId} {rest : Tally} {id n : Nat} (h : Tally.Counts ids ((id, n) :: rest)) :
    Tally.Counts (id :: ids) ((id, n + 1) :: rest) := by
  obtain ⟨hlt, hrest⟩ := List.pairwise_cons.1 h.ascending
  have hn : n = ids.count id := ((h.mem_iff id n).1 List.mem_cons_self).2
  refine ⟨List.pairwise_cons.2 ⟨hlt, hrest⟩, ?_⟩
  intro other m
  by_cases heq : other = id
  · subst heq
    have hother : (other, m) ∉ rest := fun hmem => Nat.lt_irrefl other (hlt _ hmem)
    simp only [List.mem_cons, Prod.mk.injEq, List.count_cons_self, hother, ← hn, true_and, or_false]
    omega
  · have hmem := h.mem_iff other m
    simp only [List.mem_cons, Prod.mk.injEq, heq, false_and, false_or] at hmem ⊢
    rw [List.count_cons_of_ne (Ne.symm heq)]
    exact hmem

theorem Tally.Counts.add {ids : List ProgramId} {t : Tally} (h : t.Counts ids) {id : ProgramId}
    (hle : ∀ other ∈ ids, id ≤ other) : (Tally.add id t).Counts (id :: ids) := by
  cases t with
  | nil =>
    apply h.cons
    intro other hmem
    cases (h.id_mem_iff other).2 hmem
  | cons entry rest =>
    obtain ⟨first, n⟩ := entry
    rw [Tally.add]
    split
    · rename_i heq
      subst heq
      exact h.again
    · rename_i hne
      apply h.cons
      intro other hmem
      have hfirst : id < first := Nat.lt_of_le_of_ne (hle first ((h.id_mem_iff first).1 List.mem_cons_self)) hne
      rcases List.mem_cons.1 ((h.id_mem_iff other).2 hmem) with rfl | hrest
      · exact hfirst
      · obtain ⟨later, hlater, rfl⟩ := List.mem_map.1 hrest
        exact Nat.lt_trans hfirst ((List.pairwise_cons.1 h.ascending).1 later hlater)

theorem foldr_add_counts {ids : List ProgramId} (hsorted : ids.Pairwise (· ≤ ·)) :
    (ids.foldr Tally.add []).Counts ids := by
  induction ids with
  | nil => exact Tally.counts_nil
  | cons id ids ih =>
    obtain ⟨hle, hrest⟩ := List.pairwise_cons.1 hsorted
    exact (ih hrest).add hle

/-- a tally counts every id that occurs -/
theorem tally_counts (ids : List ProgramId) : (tally ids).Counts ids := by
  have hsorted : ids.mergeSort.Pairwise (· ≤ ·) := by
    refine (List.pairwise_mergeSort ?_ ?_ ids).imp fun hle => of_decide_eq_true hle
    · intro i j k hij hjk
      exact decide_eq_true (Nat.le_trans (of_decide_eq_true hij) (of_decide_eq_true hjk))
    · intro i j
      rw [Bool.or_eq_true, decide_eq_true_eq, decide_eq_true_eq]
      exact Nat.le_total i j
  obtain ⟨hascending, hmem⟩ := foldr_add_counts hsorted
  refine ⟨hascending, ?_⟩
  intro id n
  rw [← (List.mergeSort_perm ids _).count_eq id]
  exact hmem id n

/-- of ids that all differ, each is listed once -/
theorem ascendingIds_of_nodup {ids : List ProgramId} (h : ids.Nodup) : (ascendingIds ids).Perm ids := by
  have hcounts := tally_counts ids
  have hnodup : (ascendingIds ids).Nodup :=
    List.pairwise_map.2 (hcounts.ascending.imp fun hlt => Nat.ne_of_lt hlt)
  rw [List.perm_ext_iff_of_nodup hnodup h]
  exact hcounts.id_mem_iff

end CoreWar
