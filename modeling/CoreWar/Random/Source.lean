/-
Sources of random words, and numbers drawn from them.

A source gives one 64-bit word after another. `drawBelow?` turns words into a number below a bound, each equally likely:
the product of a word and the bound has a high half, which is below the bound, and a low half; the word is accepted if
the low half lies in the zone, the largest multiple of the bound by a power of two that fits in a word, and otherwise
thrown away. Every number below the bound is then the high half of the same number of accepted words.
-/

namespace CoreWar

class WordSource (G : Type) where
  next : G → UInt64 × G

namespace Random

/-- the size of the zone for bounds from 1 to `2 ^ 64 - 1`: the bound shifted left until its top bit is bit 63 -/
def zone (bound : Nat) : Nat := bound <<< (63 - bound.log2)

/-- what a word stands for below the bound, unless it is to be thrown away -/
def accept? (bound : Nat) (word : UInt64) : Option Nat :=
  let product : Nat := word.toNat * bound
  if product % UInt64.size < zone bound then some (product / UInt64.size) else none

/-- draws a number below `bound`, trying at most `tries` words -/
def drawWithin? {G : Type} [WordSource G] (bound : Nat) : Nat → G → Option Nat × G
  | 0, g => (none, g)
  | tries + 1, g =>
    let (word, g) := WordSource.next g
    match accept? bound word with
    | some n => (some n, g)
    | none => drawWithin? bound tries g

/-- draws a number below `bound`; gives up after as many words as there are, when a source that steps through the words
in a fixed order has offered all it will ever offer -/
def drawBelow? {G : Type} [WordSource G] (bound : Nat) (g : G) : Option Nat × G :=
  drawWithin? bound UInt64.size g

theorem accept?_lt {bound n : Nat} {word : UInt64} (h : accept? bound word = some n) : n < bound := by
  simp only [accept?] at h
  split at h
  · cases h
    have hword : word.toNat < UInt64.size := word.toNat_lt
    rw [Nat.div_lt_iff_lt_mul (by decide), Nat.mul_comm bound]
    rename_i hzone
    have hpos : 0 < bound := by
      rcases Nat.eq_zero_or_pos bound with rfl | hpos
      · simp [zone] at hzone
      · exact hpos
    exact Nat.mul_lt_mul_of_pos_right hword hpos
  · cases h

theorem drawWithin?_lt {G : Type} [WordSource G] {bound tries n : Nat} {g g' : G}
    (h : drawWithin? bound tries g = (some n, g')) : n < bound := by
  induction tries generalizing g with
  | zero => simp [drawWithin?] at h
  | succ tries ih =>
    simp only [drawWithin?] at h
    split at h
    · rename_i haccept
      simp only [Prod.mk.injEq, Option.some.injEq] at h
      exact h.1 ▸ accept?_lt haccept
    · exact ih h

end Random

end CoreWar
