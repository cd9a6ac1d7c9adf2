import Reputation.Document.Float
import Reputation.Document.Reader

/-!
# Values of documents

What a document stands for where a text, a count, a number, one of several names or a record is
expected. Records come as objects, in which unknown members are passed over and no known one may
occur twice, or as arrays of all their fields in order.
-/

namespace Reputation

namespace Document

/-- A text. -/
def text? : Document → Option String
  | string content => Bytes.toString? content
  | _ => none

/-- A count up to `high`: digits alone. -/
def nat? (high : Nat) : Document → Option Nat
  | number text =>
    if text.toList.all Char.isDigit && digitsValue text.toList ≤ high then
      some (digitsValue text.toList)
    else none
  | _ => none

/-- A 64-bit count. -/
def word? (d : Document) : Option UInt64 := (d.nat? (UInt64.size - 1)).map UInt64.ofNat

/-- A 32-bit count. -/
def halfWord? (d : Document) : Option UInt32 := (d.nat? (UInt32.size - 1)).map UInt32.ofNat

/-- A number. -/
def float? : Document → Option Float
  | number text => scaledFloat? text
  | _ => none

/-- Nothing, or a value. -/
def optional? {α : Type} (read : Document → Option α) : Document → Option (Option α)
  | null => some none
  | d => (read d).map some

/-- A list of values. -/
def list? {α : Type} (read : Document → Option α) : Document → Option (List α)
  | array items => items.mapM read
  | _ => none

/-- One of several names: as a text, or as the only key of an object with the value null. -/
def choice? {α : Type} (ofName? : String → Option α) : Document → Option α
  | string content => (Bytes.toString? content).bind ofName?
  | object [(k, null)] => (Bytes.toString? k).bind ofName?
  | _ => none

/-- The members of an object whose keys are all texts. -/
def members? : Document → Option (List (String × Document))
  | object members => members.mapM fun (k, d) => (Bytes.toString? k).map fun k => (k, d)
  | _ => none

/-- The values of a name among some members. -/
def valuesOf (name : String) (members : List (String × Document)) : List Document :=
  (members.filter fun m => m.1 == name).map Prod.snd

/-- **The fields of a record**, in the order of their names; `none` stands for a missing one. An
array has to hold all fields, or may leave out the last ones if it `mayEnd` early. -/
def fields? (names : List String) (mayEnd : Bool) : Document → Option (List (Option Document))
  | array items =>
    if items.length = names.length || (mayEnd && items.length < names.length) then
      some (items.map some ++ List.replicate (names.length - items.length) none)
    else none
  | d => do
    let members ← d.members?
    names.mapM fun name =>
      match valuesOf name members with
      | [] => some none
      | [d] => some (some d)
      | _ => none

/-- A field that has to be there. -/
def required? {α : Type} (read : Document → Option α) (d : Option Document) : Option α := d.bind read

/-- A field that takes a default when it is missing. -/
def orDefault? {α : Type} (read : Document → Option α) (default : α) :
    Option Document → Option α
  | none => some default
  | some d => read d

end Document

end Reputation
