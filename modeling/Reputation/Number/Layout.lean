import Reputation.Number.Shortest

/-!
# Layouts of decimals

How the digits of a number are set in a text: where positional writing ends, whether a whole number
keeps its `.0`, how an exponent is written, and the words for infinities and not-a-number.
`Layout.text` is the shortest decimal in a layout, `Layout.fixed` a number with a fixed count of
places.
-/

namespace Reputation

/-- **A layout.** -/
structure Layout where
  /-- Numbers `d.ddd · 10 ^ e` with `low ≤ e < high` are written positionally, or all numbers. -/
  bounds : Option (Int × Int)
  /-- Does a whole number end in `.0`? -/
  wholePoint : Bool
  /-- Does a positive exponent have a plus? -/
  plusExponent : Bool
  /-- Which of two equally near shortest decimals is taken. -/
  tie : Tie
  infinity : String
  minusInfinity : String
  notANumber : String
deriving Repr

namespace Layout

/-- The layout of messages and settings: positional at any size, and whole numbers have no point. -/
def plain : Layout where
  bounds := none
  wholePoint := false
  plusExponent := false
  tie := .up
  infinity := "inf"
  minusInfinity := "-inf"
  notANumber := "NaN"

/-- The layout of score tables: an exponent below `0.00001` and from `1e16` on. -/
def table : Layout where
  bounds := some (-5, 16)
  wholePoint := true
  plusExponent := false
  tie := .even
  infinity := "inf"
  minusInfinity := "-inf"
  notANumber := "NaN"

/-- The layout of structured documents: as in tables, but an exponent shows its plus, and what is
not finite has no value. -/
def document : Layout where
  bounds := some (-5, 16)
  wholePoint := true
  plusExponent := true
  tie := .even
  infinity := "null"
  minusInfinity := "null"
  notANumber := "null"

/-- Digits with a point after the first `whole` of them, filled up with zeros on either side. -/
def positional (digits : String) (whole : Int) (wholePoint : Bool) : String :=
  let zeros (n : Nat) := String.ofList (List.replicate n '0')
  if whole ≤ 0 then "0." ++ zeros (-whole).toNat ++ digits
  else if digits.length ≤ whole.toNat then
    digits ++ zeros (whole.toNat - digits.length) ++ (if wholePoint then ".0" else "")
  else
    let ds := digits.toList
    String.ofList (ds.take whole.toNat) ++ "." ++ String.ofList (ds.drop whole.toNat)

/-- Digits with a point after the first one and an exponent. -/
def scientific (digits : String) (exponent : Int) (plus : Bool) : String :=
  let mantissa := match digits.toList with
    | [d] => d.toString
    | d :: ds => d.toString ++ "." ++ String.ofList ds
    | [] => ""
  mantissa ++ "e" ++ (if plus && 0 ≤ exponent then "+" else "") ++ toString exponent

/-- The shortest decimal that reads back as `x`, in the layout. -/
def text (l : Layout) (x : Float) : String :=
  match Binary.ofFloat x with
  | .notANumber => l.notANumber
  | .infinite negative => if negative then l.minusInfinity else l.infinity
  | .finite negative 0 _ => (if negative then "-" else "") ++ (if l.wholePoint then "0.0" else "0")
  | .finite negative mantissa exponent =>
    let (n, power) := Shortest.decimal l.tie mantissa exponent
    let digits := toString n
    let leading := power + (digits.length : Int) - 1
    let body := match l.bounds with
      | none => positional digits (leading + 1) l.wholePoint
      | some (low, high) =>
        if low ≤ leading && leading < high then positional digits (leading + 1) l.wholePoint
        else scientific digits leading l.plusExponent
    (if negative then "-" else "") ++ body

/-! ### Fixed places -/

/-- `a / b` rounded to the nearest whole number, a half to the even one. -/
def roundDiv (a b : Nat) : Nat :=
  let q := a / b
  let twice := 2 * (a % b)
  if twice < b then q else if b < twice then q + 1 else if q % 2 = 0 then q else q + 1

/-- A number with `places` digits after the point, rounded from its exact value. -/
def fixed (places : Nat) (x : Float) : String :=
  match Binary.ofFloat x with
  | .notANumber => plain.notANumber
  | .infinite negative => if negative then plain.minusInfinity else plain.infinity
  | .finite negative mantissa exponent =>
    let n := roundDiv (mantissa * Nat.pow 2 exponent.toNat * Nat.pow 10 places)
      (Nat.pow 2 (-exponent).toNat)
    let digits := toString n
    let padded := String.ofList (List.replicate (places + 1 - digits.length) '0') ++ digits
    (if negative then "-" else "") ++ positional padded ((padded.length : Int) - places) false

end Layout

end Reputation
