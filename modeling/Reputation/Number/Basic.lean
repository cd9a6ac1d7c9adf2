import Reputation.Number.Numeral
import Reputation.Number.Layout

/-!
# Numbers

Trust is computed in a type of numbers `K`. The class `Number` lists what a computation uses of it,
and has two instances:

* `Float`, the binary64 numbers in which trust is computed;
* `Rat`, in which the same definitions have their exact meaning.

Comparisons are Boolean, since not-a-number is neither below, above nor equal to anything.
-/

namespace Reputation

/-- **The arithmetic of trust.** -/
class Number (K : Type) extends Add K, Sub K, Mul K, Div K where
  zero : K
  one : K
  /-- What a sum over a list starts from: the neutral element, which is minus zero in binary64. -/
  emptySum : K
  /-- The nearest number to a count. -/
  ofNat : Nat → K
  /-- The absolute value. -/
  abs : K → K
  /-- Is the first number below the second? -/
  lt : K → K → Bool
  /-- Is the first number below the second or equal to it? -/
  le : K → K → Bool
  /-- Are two numbers equal, zeros of either sign included? -/
  eq : K → K → Bool
  /-- The whole part of a number, as a 64-bit count: 0 below 1, the greatest count above all. -/
  whole : K → Nat
  /-- The nearest number to `± digits · 10 ^ exponent`. -/
  ofDecimal : Bool → Nat → Int → K
  /-- The infinity of a sign, if there are infinities. -/
  infinity? : Bool → Option K
  /-- Not a number, if there is such a value. -/
  notANumber? : Option K
  /-- The text of a number in a layout. -/
  format : Layout → K → String
  /-- The text of a number with some places after the point. -/
  fixed : Nat → K → String

namespace Number

variable {K : Type} [Number K]

/-- The sum of a list, from the first entry on. -/
def sum (xs : List K) : K := xs.foldl (· + ·) emptySum

/-- The larger of a number and a floor; the floor also replaces what is not a number. -/
def raise (floor x : K) : K := if le floor x then x else floor

/-- The number that a numeral stands for. -/
def ofNumeral? : Numeral → Option K
  | .decimal negative digits exponent => some (ofDecimal negative digits exponent)
  | .infinity negative => infinity? negative
  | .notANumber => notANumber?

/-- The greatest 64-bit count. -/
def greatestCount : Nat := UInt64.size - 1

/-! ### Binary64 -/

/-- The nearest binary64 number to `digits · 10 ^ exponent`. Decimals beyond all binary64 numbers
are told by their count of digits. -/
def nearestFloat (digits : Nat) (exponent : Int) : Float :=
  let magnitude := exponent + (Shortest.digitCount digits : Int)
  if digits = 0 || magnitude < -400 then 0.0
  else if 400 < magnitude then 1.0 / 0.0
  else Float.ofScientific digits (decide (exponent < 0)) exponent.natAbs

instance : Number Float where
  zero := 0.0
  one := 1.0
  emptySum := -0.0
  ofNat n := Float.ofNat n
  abs := Float.abs
  lt a b := decide (a < b)
  le a b := decide (a ≤ b)
  eq a b := a == b
  whole x := x.toUInt64.toNat
  ofDecimal negative digits exponent :=
    if negative then -(nearestFloat digits exponent) else nearestFloat digits exponent
  infinity? negative := some (if negative then -1.0 / 0.0 else 1.0 / 0.0)
  notANumber? := some (0.0 / 0.0)
  format := Layout.text
  fixed := Layout.fixed

/-! ### Exact arithmetic -/

/-- A rational number as a fraction; it needs no rounding in any layout. -/
def ratText (q : Rat) : String := toString q.num ++ "/" ++ toString q.den

instance : Number Rat where
  zero := 0
  one := 1
  emptySum := 0
  ofNat n := (n : Rat)
  abs q := if q < 0 then -q else q
  lt a b := decide (a < b)
  le a b := decide (a ≤ b)
  eq a b := decide (a = b)
  whole q := min q.floor.toNat greatestCount
  ofDecimal negative digits exponent :=
    (if negative then -(digits : Rat) else digits) * (10 : Rat) ^ exponent
  infinity? _ := none
  notANumber? := none
  format _ := ratText
  fixed _ := ratText

end Number

end Reputation
