import Reputation.Number.Binary

/-!
# The shortest decimal that reads back

A finite binary64 number is the nearest one to a whole interval of reals. `Shortest.decimal` finds
the decimal with the fewest digits in that interval, and of those the one nearest to the number;
`Tie` says which of two equally near ones is taken.
-/

namespace Reputation

/-- Which of two equally near neighbours is taken. -/
inductive Tie where
  | up
  | even
deriving Repr, DecidableEq, Inhabited

namespace Shortest

/-- **A rounding interval**: the number, its lower and its upper end over one denominator; the ends
belong to the interval when `closed` holds. -/
structure Interval where
  value : Nat
  low : Nat
  high : Nat
  denominator : Nat
  closed : Bool
deriving Repr

/-- The reals that round to `mantissa · 2 ^ exponent`. The gap below a power of two is half as wide
as the gap above it. -/
def interval (mantissa : Nat) (exponent : Int) : Interval :=
  let narrow := mantissa == Binary.leastNormal && Binary.leastExponent < exponent
  let quarter := exponent - 2
  let unit := Nat.pow 2 quarter.toNat
  { value := 4 * mantissa * unit
    low := (4 * mantissa - if narrow then 1 else 2) * unit
    high := (4 * mantissa + 2) * unit
    denominator := Nat.pow 2 (-quarter).toNat
    closed := mantissa % 2 == 0 }

/-- Does `n · 10 ^ power` lie in the interval? -/
def Interval.contains (i : Interval) (n : Nat) (power : Int) : Bool :=
  let x := n * Nat.pow 10 power.toNat * i.denominator
  let scale := Nat.pow 10 (-power).toNat
  if i.closed then i.low * scale ≤ x && x ≤ i.high * scale
  else i.low * scale < x && x < i.high * scale

/-- The multiple of `10 ^ power` in the interval that is nearest to the number. -/
def Interval.nearest? (i : Interval) (tie : Tie) (power : Int) : Option Nat :=
  let number := i.value * Nat.pow 10 (-power).toNat
  let step := Nat.pow 10 power.toNat * i.denominator
  let below := number / step
  match i.contains below power, i.contains (below + 1) power with
  | false, false => none
  | true, false => some below
  | false, true => some (below + 1)
  | true, true =>
    let twice := 2 * (number - below * step)
    if twice < step then some below
    else if step < twice then some (below + 1)
    else match tie with
      | .up => some (below + 1)
      | .even => some (if below % 2 = 0 then below else below + 1)

/-- Number of decimal digits of `n`. -/
def digitCount (n : Nat) : Nat := (Nat.toDigits 10 n).length

/-- The least `k` with `number < 10 ^ k`. -/
def Interval.magnitude (i : Interval) : Int :=
  let k : Int := (digitCount i.value : Int) - digitCount i.denominator
  if i.value * Nat.pow 10 (-k).toNat < i.denominator * Nat.pow 10 k.toNat then k else k + 1

/-- Drops the zeros that a number ends with, counting them into the exponent. Every step divides
by ten, so as many steps as there are digits are enough. -/
def trimZeros : Nat → Nat → Int → Nat × Int
  | 0, n, e => (n, e)
  | fuel + 1, n, e => if n % 10 = 0 && n != 0 then trimZeros fuel (n / 10) (e + 1) else (n, e)

/-- **The shortest decimal** of a number other than zero: digits that do not end in a zero, and the
power of ten of the last one. Seventeen digits always lie close enough. -/
def decimal (tie : Tie) (mantissa : Nat) (exponent : Int) : Nat × Int :=
  let i := interval mantissa exponent
  let k := i.magnitude
  let found := (List.range 17).findSome? fun count =>
    let power := k - (count + 1 : Nat)
    (i.nearest? tie power).map fun n => (n, power)
  let (n, power) := found.getD (0, 0)
  trimZeros 18 n power

end Shortest

end Reputation
