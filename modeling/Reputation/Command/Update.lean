import Reputation.Command.Arguments
import Reputation.Config

/-!
# Changes of the configuration

`Config.update` applies options to a configuration, one after the other, and then checks the result.
An option that cannot be read stops it; the changes made before it stay in the configuration that is
returned.
-/

namespace Reputation

namespace Config

/-- A change of a configuration, which may stop halfway. -/
abbrev Change := ExceptT TrustError (StateM Config)

/-- The parts of a text between commas, without blanks around them and without empty ones. -/
def splitNames (s : String) : List String :=
  ((s.splitOn ",").map Text.trim).filter fun name => !name.isEmpty

/-- Applies an option, if it is given. -/
def whenGiven (option : Option String) (change : String → Change Unit) : Change Unit :=
  match option with
  | some value => change value
  | none => pure ()

/-- Passes on a number or stops with the reason why it cannot be read. -/
def readOr {α : Type} (r : Except NumeralError α) : Change α :=
  match r with
  | .ok x => pure x
  | .error e => throw (.badNumeral e)

/-- Sets a parameter to a text that was found readable. -/
def setParam (name value : String) : Change Unit :=
  modify fun c => { c with params := c.params.set name value }

/-- The changes that some options ask for, in a fixed order. -/
def applyOptions (o : UpdateOptions) : Change Unit := do
  whenGiven o.home fun home => modify fun c => { c with home }
  whenGiven o.preTrusted fun names => modify fun c => { c with preTrusted := splitNames names }
  whenGiven o.algorithm fun name => do
    match Algorithm.read name with
    | .ok algorithm => modify fun c => { c with algorithm }
    | .error e => throw e
  whenGiven o.alpha fun value => do
    let _ ← readOr (Numeral.read value)
    setParam Params.alpha value
  whenGiven o.epsilon fun value => do
    let _ ← readOr (Numeral.read value)
    setParam Params.epsilon value
  whenGiven o.maxIterations fun value => do
    let _ ← readOr (readCount (UInt32.size - 1) value)
    setParam Params.maxIterations value
  whenGiven o.cacheInterval fun value => do
    let n ← readOr (readCount (UInt64.size - 1) value)
    modify fun c => { c with cacheInterval := UInt64.ofNat n }
  whenGiven o.boostWeight fun value => do
    let n ← readOr (readCount (UInt32.size - 1) value)
    modify fun c => { c with boostWeight := UInt32.ofNat n }

/-- Applies options and checks the result. -/
def applyAndValidate (K : Type) [Number K] (o : UpdateOptions) : Change Unit := do
  applyOptions o
  match (← get).validate K with
  | .ok () => pure ()
  | .error e => throw e

/-- **The configuration after some options**, with the error that stopped them, if one did. -/
def update (K : Type) [Number K] (o : UpdateOptions) (c : Config) :
    Except TrustError Unit × Config :=
  (applyAndValidate K o).run.run c

end Config

end Reputation
