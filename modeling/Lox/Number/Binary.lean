/-!
# What a double stands for

A finite double is a sign and a natural number times a power of two (`Binary`). `Reading.ofFloat`
takes the 64 bits of a double apart: one sign bit, eleven exponent bits, 52 fraction bits.
-/

namespace Lox.Number

/-- The number `significand * 2 ^ exponent`. -/
structure Binary where
  significand : Nat
  exponent : Int
deriving DecidableEq, Repr

/-- The value, if it is a natural number. -/
def Binary.natural? (b : Binary) : Option Nat :=
  if 0 ≤ b.exponent then
    some (b.significand * Nat.pow 2 b.exponent.toNat)
  else if b.significand % Nat.pow 2 (-b.exponent).toNat = 0 then
    some (b.significand / Nat.pow 2 (-b.exponent).toNat)
  else
    none

/-- What a double stands for. -/
inductive Reading
  | nan
  | infinite (negative : Bool)
  | finite (negative : Bool) (size : Binary)
deriving DecidableEq, Repr

/-- The exponent field 2047 marks infinities and NaN; the field 0 marks zero and the numbers too
small for a leading one bit. -/
def Reading.ofBits (bits : Nat) : Reading :=
  let negative := bits.testBit 63
  let field : Nat := bits / Nat.pow 2 52 % Nat.pow 2 11
  let fraction : Nat := bits % Nat.pow 2 52
  if field = 2047 then
    if fraction = 0 then .infinite negative else .nan
  else if field = 0 then
    .finite negative ⟨fraction, -1074⟩
  else
    .finite negative ⟨Nat.pow 2 52 + fraction, (field : Int) - 1075⟩

/-- What the double `x` stands for. -/
def Reading.ofFloat (x : Float) : Reading :=
  .ofBits x.toBits.toNat

end Lox.Number
