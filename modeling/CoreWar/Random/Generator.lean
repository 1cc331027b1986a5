/-
The generators a battle can be given: one grown from a seed, or a counter for battles whose draws are laid down.
-/
import CoreWar.Random.Counter
import CoreWar.Random.Xoshiro

namespace CoreWar

namespace Random

inductive Generator where
  | seeded (state : Xoshiro)
  | counting (state : Counter)
deriving DecidableEq, Repr

namespace Generator

def ofSeed (seed : UInt64) : Generator := .seeded (Xoshiro.ofSeed seed)

def next : Generator → UInt64 × Generator
  | seeded state => let (word, state) := state.next; (word, seeded state)
  | counting state => let (word, state) := state.next; (word, counting state)

instance : WordSource Generator := ⟨next⟩

end Generator

end Random

end CoreWar
