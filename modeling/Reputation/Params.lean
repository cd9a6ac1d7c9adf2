import Std.Data.ExtTreeMap
import Reputation.Failure
import Reputation.Number.Basic
import Reputation.Text.Blank

/-!
# Parameters

Named settings of the trust algorithms, kept as texts. A parameter is read as a number when it is
used: `Params.integer` and `Params.number` refuse a missing or malformed one, `Params.integerOr` and
`Params.numberOr` take a default instead and tell whether they had to.
-/

namespace Reputation

/-- **Named parameters.** -/
structure Params where
  values : Std.ExtTreeMap String String

namespace Params

/-- The name of the greatest number of iterations. -/
def maxIterations : String := "MAX_ITERATIONS"

/-- The name of the weight of the pre-trust in each iteration. -/
def alpha : String := "ALPHA"

/-- The name of the change below which an iteration has settled. -/
def epsilon : String := "EPSILON"

/-- The default number of iterations. -/
def defaultMaxIterations : Int := 20

/-- The default weight of the pre-trust: one tenth. -/
def defaultAlpha {K : Type} [Number K] : K := Number.ofDecimal false 1 (-1)

/-- The default change: one hundredth. -/
def defaultEpsilon {K : Type} [Number K] : K := Number.ofDecimal false 1 (-2)

/-- No parameters. -/
def empty : Params := ⟨∅⟩

instance : Inhabited Params := ⟨empty⟩

/-- Sets a parameter. -/
def set (p : Params) (name value : String) : Params := ⟨p.values.insert name value⟩

/-- Sets a parameter to an integer. -/
def setInteger (p : Params) (name : String) (n : Int) : Params := p.set name (toString n)

/-- Sets a parameter to a number. -/
def setNumber {K : Type} [Number K] (p : Params) (name : String) (x : K) : Params :=
  p.set name (Number.format .plain x)

/-- The default parameters. -/
def defaults : Params :=
  ((empty.set maxIterations "20").set alpha "0.1").set epsilon "0.01"

/-- The parameters of a list; a later value replaces an earlier one. -/
def ofList (entries : List (String × String)) : Params :=
  entries.foldl (fun p (name, value) => p.set name value) empty

/-- The parameters in the order of their names. -/
def toList (p : Params) : List (String × String) := p.values.toList

/-- The text of a parameter. -/
def get? (p : Params) (name : String) : Option String := p.values[name]?

/-- Is the parameter there? -/
def contains (p : Params) (name : String) : Bool := (p.get? name).isSome

/-- The text of a parameter that has to be there. -/
def text (p : Params) (name : String) : Except TrustError String :=
  match p.get? name with
  | some value => .ok value
  | none => .error (.missingParameter name)

/-- The text of a parameter, or a default. -/
def textOr (p : Params) (name default : String) : String := (p.get? name).getD default

/-! ### Numbers -/

/-- Reads a signed 64-bit integer, with blanks around it or not. -/
def readInteger? (s : String) : Option Int :=
  (Reputation.readInteger (Nat.pow 2 63) (Nat.pow 2 63 - 1) (Text.trim s)).toOption

/-- Reads a number, with blanks around it or not. -/
def readNumber? {K : Type} [Number K] (s : String) : Option K :=
  (Numeral.ofString? (Text.trim s)).bind Number.ofNumeral?

/-- A parameter that has to be there and to be readable. -/
def required {α : Type} (p : Params) (read? : String → Option α) (name : String) :
    Except TrustError α := do
  let value ← p.text name
  match read? value with
  | some x => .ok x
  | none => .error (.malformedParameter name value)

/-- The value of a parameter, or a default if it is missing or malformed; a malformed text is
returned beside the default. -/
def optional {α : Type} (p : Params) (read? : String → Option α) (name : String) (default : α) :
    α × Option String :=
  match p.get? name with
  | none => (default, none)
  | some value =>
    match read? value with
    | some x => (x, none)
    | none => (default, some value)

/-- A required integer. -/
def integer (p : Params) (name : String) : Except TrustError Int := p.required readInteger? name

/-- A required number. -/
def number {K : Type} [Number K] (p : Params) (name : String) : Except TrustError K :=
  p.required readNumber? name

/-- An integer, or a default. -/
def integerOr (p : Params) (name : String) (default : Int) : Int × Option String :=
  p.optional readInteger? name default

/-- A number, or a default. -/
def numberOr {K : Type} [Number K] (p : Params) (name : String) (default : K) :
    K × Option String :=
  p.optional readNumber? name default

end Params

end Reputation
