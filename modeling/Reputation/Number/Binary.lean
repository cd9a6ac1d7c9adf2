/-!
# Binary64 numbers taken apart

`Binary.ofFloat` gives the sign, the mantissa and the exponent that the bits of a number stand for;
the printers work on these, in exact arithmetic.
-/

namespace Reputation

/-- **The value of a binary64 number**: `± mantissa · 2 ^ exponent`, an infinity or not a number. -/
inductive Binary where
  | finite (negative : Bool) (mantissa : Nat) (exponent : Int)
  | infinite (negative : Bool)
  | notANumber
deriving Repr, DecidableEq, Inhabited

namespace Binary

/-- The exponent of the smallest binary64 numbers. -/
def leastExponent : Int := -1074

/-- The least mantissa of a normal number. -/
def leastNormal : Nat := Nat.pow 2 52

/-- The value of a bit pattern: sign, eleven exponent bits, 52 mantissa bits. -/
def ofBits (bits : UInt64) : Binary :=
  let n := bits.toNat
  let negative := n / Nat.pow 2 63 == 1
  let field : Nat := n / Nat.pow 2 52 % Nat.pow 2 11
  let fraction := n % Nat.pow 2 52
  if field = 2047 then
    if fraction = 0 then infinite negative else notANumber
  else if field = 0 then finite negative fraction leastExponent
  else finite negative (leastNormal + fraction) (leastExponent + ((field : Int) - 1))

/-- The value of a number. -/
def ofFloat (x : Float) : Binary := ofBits x.toBits

end Binary

end Reputation
