import Reputation.Number.Basic
import Reputation.Text.Bytes

/-!
# Structured documents

A `Document` is a JSON value. Numbers are kept as they are written and strings as the bytes of their
characters: both may lie in a part of a document that nobody looks at, where a number need not fit
any type and a string need not be a text. `Document.write` prints a document, in one line or with
two spaces of indentation for each level.
-/

namespace Reputation

/-- **A JSON value.** -/
inductive Document where
  | null
  | bool (value : Bool)
  | number (text : String)
  | string (content : Bytes)
  | array (items : List Document)
  | object (members : List (Bytes × Document))
deriving Inhabited

namespace Document

/-! ### Building -/

/-- A text as a document. -/
def ofString (s : String) : Document := string (Bytes.ofString s)

/-- A count as a document. -/
def ofNat (n : Nat) : Document := number (toString n)

/-- A number as a document; what is not finite has no value. -/
def ofFloat (x : Float) : Document := number (Layout.document.text x)

/-- An object with the given members. -/
def ofMembers (members : List (String × Document)) : Document :=
  object (members.map fun (k, d) => (Bytes.ofString k, d))

/-! ### Printing -/

/-- Two hexadecimal digits. -/
def hexByte (b : UInt8) : Bytes :=
  Bytes.ofString (String.ofList [Nat.digitChar (b.toNat / 16), Nat.digitChar (b.toNat % 16)])

/-- How a byte is written in a string: quotes, backslashes and controls are escaped. -/
def escape (b : UInt8) : Bytes :=
  if b = Bytes.ascii '"' then Bytes.ofString "\\\""
  else if b = Bytes.ascii '\\' then Bytes.ofString "\\\\"
  else if b = 8 then Bytes.ofString "\\b"
  else if b = 9 then Bytes.ofString "\\t"
  else if b = 10 then Bytes.ofString "\\n"
  else if b = 12 then Bytes.ofString "\\f"
  else if b = 13 then Bytes.ofString "\\r"
  else if b < 32 then Bytes.ofString "\\u00" ++ hexByte b
  else [b]

/-- A string between quotes. -/
def writeString (content : Bytes) : Bytes :=
  Bytes.ascii '"' :: (content.flatMap escape ++ [Bytes.ascii '"'])

/-- The start of a new line at a level of indentation; nothing in one-line printing. -/
def lineBreak : Option Nat → Bytes
  | none => []
  | some level => 10 :: List.replicate (2 * level) (Bytes.ascii ' ')

/-- The colon between a key and its value. -/
def colon : Option Nat → Bytes
  | none => [Bytes.ascii ':']
  | some _ => [Bytes.ascii ':', Bytes.ascii ' ']

/-- Items between brackets, with commas and line breaks; brackets around nothing stay together. -/
def enclose (level : Option Nat) (left right : Char) (items : List Bytes) : Bytes :=
  match items with
  | [] => [Bytes.ascii left, Bytes.ascii right]
  | items =>
    let line := lineBreak (level.map (· + 1))
    Bytes.ascii left ::
      ((items.map (line ++ ·)).intersperse [Bytes.ascii ',']).flatten ++
        lineBreak level ++ [Bytes.ascii right]

mutual

/-- **The bytes of a document**, in one line (`none`) or indented from a level on. -/
def write (level : Option Nat) : Document → Bytes
  | null => Bytes.ofString "null"
  | bool b => Bytes.ofString (if b then "true" else "false")
  | number text => Bytes.ofString text
  | string content => writeString content
  | array items => enclose level '[' ']' (writeItems (level.map (· + 1)) items)
  | object members => enclose level '{' '}' (writeMembers (level.map (· + 1)) members)

/-- The bytes of each item. -/
def writeItems (level : Option Nat) : List Document → List Bytes
  | [] => []
  | d :: ds => write level d :: writeItems level ds

/-- The bytes of each member. -/
def writeMembers (level : Option Nat) : List (Bytes × Document) → List Bytes
  | [] => []
  | (k, d) :: ms => (writeString k ++ colon level ++ write level d) :: writeMembers level ms

end

end Document

end Reputation
