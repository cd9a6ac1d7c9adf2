/-!
# Numerals

Numbers as they are written in settings, files and arguments.

* `Numeral.ofString?`: a decimal, an infinity or a not-a-number, with an optional sign.
* `readInteger`, `readCount`: whole numbers within the bounds of their type.

Only the ten ASCII digits are digits.
-/

namespace Reputation

/-- **A written number**: the decimal `± digits · 10 ^ exponent`, an infinity, or not a number. -/
inductive Numeral where
  | decimal (negative : Bool) (digits : Nat) (exponent : Int)
  | infinity (negative : Bool)
  | notANumber
deriving Repr, DecidableEq, Inhabited

/-- Why a text is not the number that was asked for. -/
inductive NumeralError where
  | emptyInteger
  | badDigit
  | tooLarge
  | tooSmall
  | emptyDecimal
  | badDecimal
deriving Repr, DecidableEq, Inhabited

/-- The wording of a rejected number. -/
def NumeralError.message : NumeralError → String
  | emptyInteger => "cannot parse integer from empty string"
  | badDigit => "invalid digit found in string"
  | tooLarge => "number too large to fit in target type"
  | tooSmall => "number too small to fit in target type"
  | emptyDecimal => "cannot parse float from empty string"
  | badDecimal => "invalid float literal"

/-! ### Digits -/

/-- The value of an ASCII digit. -/
def digitValue (c : Char) : Nat := c.toNat - '0'.toNat

/-- The value of a row of digits, the most significant first. -/
def digitsValue (ds : List Char) : Nat := ds.foldl (fun n c => 10 * n + digitValue c) 0

/-- The digits that `s` starts with, and the rest of `s`. -/
def splitDigits (s : List Char) : List Char × List Char :=
  (s.takeWhile Char.isDigit, s.dropWhile Char.isDigit)

/-- Takes the sign off a text; true stands for a minus. -/
def splitSign : List Char → Bool × List Char
  | '-' :: s => (true, s)
  | '+' :: s => (false, s)
  | s => (false, s)

/-! ### Decimals -/

namespace Numeral

/-- The exponent that a decimal ends with: nothing, or `e`, an optional sign and digits. -/
def exponent? : List Char → Option Int
  | [] => some 0
  | c :: s =>
    if c = 'e' ∨ c = 'E' then
      let (negative, ds) := splitSign s
      if ds.isEmpty || !ds.all Char.isDigit then none
      else some (if negative then -(digitsValue ds : Int) else digitsValue ds)
    else none

/-- Digits with an optional point among or beside them, then an optional exponent. -/
def unsigned? (negative : Bool) (s : List Char) : Option Numeral :=
  let (whole, rest) := splitDigits s
  let (fraction, rest) := match rest with
    | '.' :: r => splitDigits r
    | r => ([], r)
  if whole.isEmpty && fraction.isEmpty then none
  else (exponent? rest).map fun e =>
    decimal negative (digitsValue (whole ++ fraction)) (e - fraction.length)

/-- Reads a number; the words for infinity and not-a-number are taken in any case. -/
def ofString? (s : String) : Option Numeral :=
  let (negative, body) := splitSign s.toList
  let word := String.ofList (body.map Char.toLower)
  if word = "inf" ∨ word = "infinity" then some (infinity negative)
  else if word = "nan" then some notANumber
  else unsigned? negative body

/-- Reads a number, or tells an empty text from one that is not a number. -/
def read (s : String) : Except NumeralError Numeral :=
  if s.isEmpty then .error .emptyDecimal
  else match ofString? s with
    | some n => .ok n
    | none => .error .badDecimal

end Numeral

/-! ### Whole numbers -/

/-- Reads digits after those that made `n`; the first character that is no digit, or that takes the
number above `high`, decides the error. -/
def countFrom (high : Nat) : Nat → List Char → Except NumeralError Nat
  | n, [] => .ok n
  | n, c :: s =>
    if !c.isDigit then .error .badDigit
    else if high < 10 * n + digitValue c then .error .tooLarge
    else countFrom high (10 * n + digitValue c) s

/-- Reads digits, at least one, as a count up to `high`. -/
def readDigits (high : Nat) (s : List Char) : Except NumeralError Nat :=
  if s.isEmpty then .error .badDigit else countFrom high 0 s

/-- Reads a count up to `high`: digits, with a plus before them or not. -/
def readCount (high : Nat) (s : String) : Except NumeralError Nat :=
  match s.toList with
  | [] => .error .emptyInteger
  | '+' :: ds => readDigits high ds
  | ds => readDigits high ds

/-- Reads a whole number in `-low … high`: digits, with a sign before them or not. -/
def readInteger (low high : Nat) (s : String) : Except NumeralError Int :=
  match s.toList with
  | [] => .error .emptyInteger
  | '-' :: ds => match readDigits low ds with
    | .ok n => .ok (-(n : Int))
    | .error .tooLarge => .error .tooSmall
    | .error e => .error e
  | '+' :: ds => (readDigits high ds).map Int.ofNat
  | ds => (readDigits high ds).map Int.ofNat

end Reputation
