import Reputation.Number.Basic

/-!
# Numbers of documents

`Document.scaledFloat?` reads a decimal by scaling: as many digits as fit in 64 bits make a
significand, which is multiplied or divided by a power of ten. The result may be a unit off the
nearest number where there are many digits; what is too large is refused.
-/

namespace Reputation

namespace Document

/-- Extends a number by digits as long as it stays within 64 bits; the second result counts the
digits that are left out. -/
def absorb : Nat → List Char → Nat × Nat
  | n, [] => (n, 0)
  | n, d :: ds =>
    if Number.greatestCount < 10 * n + digitValue d then (n, ds.length + 1)
    else absorb (10 * n + digitValue d) ds

/-- The greatest exponent that is told apart from larger ones. -/
def exponentLimit : Nat := Nat.pow 2 31 - 1

/-- The power of ten of a small exponent. -/
def powerOfTen (n : Nat) : Float := Number.nearestFloat 1 n

/-- Divides by `10 ^ n`, in steps if it is too large for one. A number other than zero vanishes
within a few steps, after which the others change nothing. -/
def divideByPower : Nat → Float → Nat → Float
  | 0, x, _ => x
  | fuel + 1, x, n =>
    if n ≤ 308 then x / powerOfTen n else divideByPower fuel (x / powerOfTen 308) (n - 308)

/-- `significand · 10 ^ exponent`, unless it is too large. -/
def scale? (significand : Nat) (exponent : Int) : Option Float :=
  let x := Float.ofNat significand
  if exponent < 0 then some (divideByPower 8 x exponent.natAbs)
  else if 308 < exponent then if significand = 0 then some x else none
  else
    let y := x * powerOfTen exponent.toNat
    if y.isInf then none else some y

/-- The digits before the point, after it, and the exponent with its sign. -/
def splitDecimal (s : List Char) : List Char × List Char × Bool × List Char :=
  let (whole, s) := Reputation.splitDigits s
  let (fraction, s) := match s with
    | '.' :: r => Reputation.splitDigits r
    | r => ([], r)
  let (negative, exponent) := splitSign (s.drop 1)
  (whole, fraction, negative, exponent)

/-- **The number of a decimal**, unless it is too large. -/
def scaledFloat? (text : String) : Option Float :=
  let (negative, s) := splitSign text.toList
  let (whole, fraction, below, exponent) := splitDecimal s
  let (n, left) := absorb 0 whole
  let (n, unused) := absorb n fraction
  let shift : Int := (left : Int) - ((fraction.length - unused : Nat) : Int)
  let e := digitsValue exponent
  let x :=
    if exponentLimit < e then if n = 0 ∨ below then some 0.0 else none
    else scale? n (if below then shift - e else shift + e)
  x.map fun x => if negative then -x else x

end Document

end Reputation
