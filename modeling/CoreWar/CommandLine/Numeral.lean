/-
Unsigned decimal numerals of 64 bits.

A numeral is one digit or more, with at most one plus sign in front. Digits are taken from left to right; the first
character that is no digit, or the first digit that makes the value too large, decides the error.
-/

namespace CoreWar

namespace Numeral

inductive Error where
  | empty
  | notDigit
  | tooLarge
deriving DecidableEq, Repr

def Error.message : Error → String
  | .empty => "cannot parse integer from empty string"
  | .notDigit => "invalid digit found in string"
  | .tooLarge => "number too large to fit in target type"

/-- reads on behind digits that stand for `value` -/
def readDigits (value : Nat) : List Char → Except Error Nat
  | [] => .ok value
  | c :: rest =>
    if c.isDigit then
      let value := 10 * value + (c.toNat - '0'.toNat)
      if value < UInt64.size then readDigits value rest else .error .tooLarge
    else .error .notDigit

def read (s : String) : Except Error Nat :=
  match s.toList with
  | [] => .error .empty
  | ['+'] => .error .notDigit
  | '+' :: digits => readDigits 0 digits
  | digits => readDigits 0 digits

end Numeral

end CoreWar
