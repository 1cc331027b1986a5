/-
The generator xoshiro256++.

Its state is four words. A seed of one word is expanded by a linear congruential generator whose output is permuted
(an xor-shift followed by a rotation that its top bits choose): two of its 32-bit outputs make one word of the state,
the first one the lower half.
-/
import CoreWar.Random.Source

namespace CoreWar

namespace Random

/-- rotation of a 64-bit word to the left, for distances from 1 to 63 -/
def rotateLeft (x distance : UInt64) : UInt64 := x <<< distance ||| x >>> (64 - distance)

/-- the state of xoshiro256++ -/
structure Xoshiro where
  s₀ : UInt64
  s₁ : UInt64
  s₂ : UInt64
  s₃ : UInt64
deriving DecidableEq, Repr

namespace Xoshiro

def next (x : Xoshiro) : UInt64 × Xoshiro :=
  let word := rotateLeft (x.s₀ + x.s₃) 23 + x.s₀
  let s₂ := x.s₂ ^^^ x.s₀
  let s₃ := x.s₃ ^^^ x.s₁
  (word,
   { s₀ := x.s₀ ^^^ s₃
     s₁ := x.s₁ ^^^ s₂
     s₂ := s₂ ^^^ x.s₁ <<< 17
     s₃ := rotateLeft s₃ 45 })

instance : WordSource Xoshiro := ⟨next⟩

/-- one step of the generator that expands seeds -/
def expandStep (state : UInt64) : UInt64 := state * 6364136223846793005 + 11634580027462260723

/-- the 32-bit output of a state of the generator that expands seeds -/
def expandOutput (state : UInt64) : UInt32 :=
  let x : UInt32 := ((state >>> 18 ^^^ state) >>> 27).toUInt32
  let distance : UInt32 := (state >>> 59).toUInt32
  -- shift distances count modulo 32, so a rotation by zero is no exception
  x >>> distance ||| x <<< (32 - distance)

/-- two outputs as one word, and the state after them -/
def expandWord (state : UInt64) : UInt64 × UInt64 :=
  let low := expandStep state
  let high := expandStep low
  ((expandOutput low).toUInt64 ||| (expandOutput high).toUInt64 <<< 32, high)

/-- stands in for the state of four zeros, which would only ever give zeros -/
def fallback : Xoshiro := ⟨0xe220a8397b1dcdaf, 0x6e789e6aa1b965f4, 0x06c45d188009454f, 0xf88bb8a8724c81ec⟩

def ofSeed (seed : UInt64) : Xoshiro :=
  let (s₀, state) := expandWord seed
  let (s₁, state) := expandWord state
  let (s₂, state) := expandWord state
  let (s₃, _) := expandWord state
  if s₀ = 0 ∧ s₁ = 0 ∧ s₂ = 0 ∧ s₃ = 0 then fallback else ⟨s₀, s₁, s₂, s₃⟩

end Xoshiro

end Random

end CoreWar
