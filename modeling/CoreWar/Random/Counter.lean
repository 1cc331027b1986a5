/-
A source that counts: every word is the one before plus a fixed increment.
-/
import CoreWar.Random.Source

namespace CoreWar

namespace Random

structure Counter where
  value : UInt64
  increment : UInt64
deriving DecidableEq, Repr

def Counter.next (c : Counter) : UInt64 × Counter := (c.value, { c with value := c.value + c.increment })

instance : WordSource Counter := ⟨Counter.next⟩

end Random

end CoreWar
