/-
Decimal fractions with one place.

A binary fraction is written exactly rounded: the value that the bits stand for is brought to the nearest tenth, and
a value halfway between two tenths to the even one. 6.25 is written 6.2 and 68.75 is written 68.8.
-/

namespace CoreWar

namespace Decimal

/-- the quotient rounded to the nearest integer, a half to the even neighbour -/
def roundDiv (num den : Nat) : Nat :=
  let q := num / den
  let r := num % den
  if 2 * r < den ∨ (2 * r = den ∧ q % 2 = 0) then q else q + 1

/-- a nonnegative binary fraction: `mantissa * 2 ^ exponent` -/
structure Binary where
  mantissa : Nat
  exponent : Int
deriving DecidableEq, Repr

/-- the magnitude that the bits of a finite double stand for -/
def Binary.ofBits (bits : UInt64) : Binary :=
  let n : Nat := bits.toNat
  let fraction : Nat := n % (1 <<< 52)
  let scale : Nat := (n >>> 52) % (1 <<< 11)
  -- scale zero marks the numbers without a leading one
  if scale = 0 then ⟨fraction, -1074⟩ else ⟨fraction + (1 <<< 52), (scale : Int) - 1075⟩

/-- the nearest number of tenths -/
def Binary.tenths (x : Binary) : Nat :=
  roundDiv ((10 * x.mantissa) <<< x.exponent.toNat) (1 <<< (-x.exponent).toNat)

/-- a number of tenths with its decimal point -/
def ofTenths (n : Nat) : String := toString (n / 10) ++ "." ++ toString (n % 10)

/-- a finite nonnegative double with one decimal place -/
def onePlace (x : Float) : String := ofTenths (Binary.ofBits x.toBits).tenths

end Decimal

end CoreWar
