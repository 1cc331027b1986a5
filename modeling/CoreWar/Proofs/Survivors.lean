/-
Survivors: who is alive, who is next, and what the outcome says about it.

- `living`, `DistinctIds`, `aliveIds_perm`: who is alive, and the ids that the battle gives for them.
- `outcome_eq_winner_iff`, `outcome_eq_draw_iff`, `outcome_eq_running_iff`: the outcome as a statement on the row of the
  living.
- `nextLive?_eq_some`, `nextLive?_eq_none_iff`, `nextLive?_of_alive`: the warrior who is next is alive, and everybody
  passed over is dead.
-/
import Mathlib.Data.List.Basic
import CoreWar.Battle.Turns
import CoreWar.Proofs.Tallies

namespace CoreWar

namespace Battle

variable {G : Type}

/-! ## The ids of the living -/

/-- the live warriors, in load order -/
def living (b : Battle G) : List Warrior := b.warriors.filter (·.alive)

/-- no two warriors have an id in common -/
def DistinctIds (b : Battle G) : Prop := (b.warriors.map (·.id)).Nodup

theorem mem_living {b : Battle G} {w : Warrior} : w ∈ b.living ↔ w ∈ b.warriors ∧ w.alive = true := by
  simp [living]

theorem length_living (b : Battle G) : b.living.length = b.warriors.countP (·.alive) :=
  List.countP_eq_length_filter.symm

theorem aliveIds_perm {b : Battle G} (h : b.DistinctIds) : b.aliveIds.Perm (b.living.map (·.id)) := by
  have hsub : (b.living.map (·.id)).Sublist (b.warriors.map (·.id)) := List.filter_sublist.map _
  exact ascendingIds_of_nodup (hsub.nodup h)

theorem length_aliveIds {b : Battle G} (h : b.DistinctIds) : b.aliveIds.length = b.living.length := by
  rw [(aliveIds_perm h).length_eq, List.length_map]

/-! ## The outcome -/

/-- the dead in front of a row do not count among its living -/
theorem filter_alive_dropWhile (ws : List Warrior) :
    (ws.dropWhile (!·.alive)).filter (·.alive) = ws.filter (·.alive) := by
  induction ws with
  | nil => rfl
  | cons w ws ih => cases hw : w.alive <;> simp [hw, ih]

/-- the outcome, read off the row of the living -/
theorem outcome_eq (b : Battle G) :
    b.outcome = match b.living with
      | [] => if b.warriors.isEmpty then .running else .draw
      | [w] => .winner w.id
      | _ => .running := by
  have hfilter := filter_alive_dropWhile b.warriors
  simp only [outcome, living, ← hfilter]
  cases hdrop : b.warriors.dropWhile (!·.alive) with
  | nil => rfl
  | cons w rest =>
    have hw : w.alive = true := by
      have hhead := List.head?_dropWhile_not (!·.alive) b.warriors
      simpa [hdrop] using hhead
    simp only [List.filter_cons_of_pos hw]
    cases hrest : rest.filter (·.alive) with
    | nil =>
      have hnone : rest.any (·.alive) = false := by
        simpa [List.filter_eq_nil_iff] using hrest
      simp [hnone]
    | cons v others =>
      have hv : v ∈ rest.filter (·.alive) := by simp [hrest]
      have hsome : rest.any (·.alive) = true := List.any_eq_true.2 ⟨v, by simpa using List.mem_filter.1 hv⟩
      simp [hsome]

theorem outcome_eq_winner_iff (b : Battle G) (id : ProgramId) :
    b.outcome = .winner id ↔ b.living.map (·.id) = [id] := by
  rw [outcome_eq]
  rcases b.living with _ | ⟨w, _ | ⟨v, rest⟩⟩
  · cases b.warriors.isEmpty <;> simp
  · simp
  · simp

theorem outcome_eq_draw_iff (b : Battle G) : b.outcome = .draw ↔ b.warriors ≠ [] ∧ b.living = [] := by
  rw [outcome_eq]
  rcases b.living with _ | ⟨w, _ | ⟨v, rest⟩⟩
  · cases hw : b.warriors <;> simp
  · simp
  · simp

theorem outcome_eq_running_iff (b : Battle G) : b.outcome = .running ↔ b.warriors = [] ∨ 2 ≤ b.living.length := by
  rw [outcome_eq]
  rcases hl : b.living with _ | ⟨w, _ | ⟨v, rest⟩⟩
  · cases hw : b.warriors <;> simp
  · have hw : b.warriors ≠ [] := List.ne_nil_of_mem (mem_living.1 (by rw [hl]; exact List.mem_singleton_self w)).1
    simp [hw]
  · simp

/-! ## Who is next -/

theorem firstLive?_eq_some {i k : Nat} {ws : List Warrior} {w : Warrior} (h : firstLive? i ws = some (w, k)) :
    ∃ j, k = i + j ∧ ws[j]? = some w ∧ w.alive = true ∧ ∀ m < j, ∀ v, ws[m]? = some v → v.alive = false := by
  induction ws generalizing i with
  | nil => simp [firstLive?] at h
  | cons v ws ih =>
    simp only [firstLive?] at h
    split at h
    · rename_i hv
      simp only [Option.some.injEq, Prod.mk.injEq] at h
      obtain ⟨rfl, rfl⟩ := h
      exact ⟨0, rfl, rfl, hv, fun m hm => absurd hm (by omega)⟩
    · rename_i hv
      obtain ⟨j, rfl, hj, hw, hdead⟩ := ih h
      refine ⟨j + 1, by omega, hj, hw, ?_⟩
      intro m hm u hu
      cases m with
      | zero => simp at hu; subst hu; simpa using hv
      | succ m => exact hdead m (by omega) u (by simpa using hu)

theorem firstLive?_eq_none_iff {i : Nat} {ws : List Warrior} :
    firstLive? i ws = none ↔ ∀ w ∈ ws, w.alive = false := by
  induction ws generalizing i with
  | nil => simp [firstLive?]
  | cons w ws ih => cases hw : w.alive <;> simp [firstLive?, hw, ih]

/-- nobody is next iff nobody is alive -/
theorem nextLive?_eq_none_iff {b : Battle G} {turn : Nat} : b.nextLive? turn = none ↔ b.living = [] := by
  simp only [nextLive?, Option.or_eq_none_iff, firstLive?_eq_none_iff, living, List.filter_eq_nil_iff,
    Bool.not_eq_true]
  exact ⟨fun h => h.2, fun h => ⟨fun w hw => h w (List.mem_of_mem_drop hw), h⟩⟩

/-- who is next is alive; everybody between the turn and the next is dead, and if the next stands before the turn, so is
everybody from the turn on -/
theorem nextLive?_eq_some {b : Battle G} {turn i : Nat} {w : Warrior} (h : b.nextLive? turn = some (w, i)) :
    b.warriors[i]? = some w ∧ w.alive = true ∧
      ((turn ≤ i ∧ ∀ m, turn ≤ m → m < i → ∀ v, b.warriors[m]? = some v → v.alive = false) ∨
        ((∀ m, turn ≤ m → ∀ v, b.warriors[m]? = some v → v.alive = false) ∧
          ∀ m < i, ∀ v, b.warriors[m]? = some v → v.alive = false)) := by
  simp only [nextLive?] at h
  rcases hback : firstLive? turn (b.warriors.drop turn) with _ | ⟨v, k⟩
  · rw [hback, Option.none_or] at h
    obtain ⟨j, rfl, hj, hw, hdead⟩ := firstLive?_eq_some h
    rw [firstLive?_eq_none_iff] at hback
    refine ⟨by simpa using hj, hw, Or.inr ⟨?_, fun m hm => hdead m (by omega)⟩⟩
    intro m hm v hv
    apply hback
    rw [List.mem_iff_getElem?]
    exact ⟨m - turn, by rw [List.getElem?_drop]; rwa [show turn + (m - turn) = m by omega]⟩
  · rw [hback, Option.some_or] at h
    cases h
    obtain ⟨j, rfl, hj, hw, hdead⟩ := firstLive?_eq_some hback
    rw [List.getElem?_drop] at hj
    refine ⟨hj, hw, Or.inl ⟨by omega, ?_⟩⟩
    intro m hm hmj v hv
    apply hdead (m - turn) (by omega)
    rw [List.getElem?_drop]
    rwa [show turn + (m - turn) = m by omega]

/-- whoever is alive at the turn is next -/
theorem nextLive?_of_alive {b : Battle G} {turn : Nat} {w : Warrior} (hw : b.warriors[turn]? = some w)
    (halive : w.alive = true) : b.nextLive? turn = some (w, turn) := by
  obtain ⟨hlt, hget⟩ := List.getElem?_eq_some_iff.1 hw
  rw [nextLive?, List.drop_eq_getElem_cons hlt, hget, firstLive?, if_pos halive, Option.some_or]

end Battle

end CoreWar
