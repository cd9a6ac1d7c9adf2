import Reputation.Text.Bytes

/-!
# Tables of fields

Comma-separated tables as lists of rows of fields. `Table.write` quotes the fields that need it and
ends each row by a line feed; `Table.scan` reads rows that end in a line feed, a carriage return or
both. Fields are bytes: whether they are texts is asked later.
-/

namespace Reputation

/-- A row of fields. -/
abbrev Row := List Bytes

namespace Table

/-- The byte between two fields. -/
def comma : UInt8 := Bytes.ascii ','

/-- The byte around a quoted field. -/
def quote : UInt8 := Bytes.ascii '"'

/-- Does the byte end a row? -/
def isLineEnd (b : UInt8) : Bool := b == 10 || b == 13

/-! ### Writing -/

/-- Does a field have to be quoted? -/
def needsQuotes (field : Bytes) : Bool :=
  field.any fun b => b == comma || b == quote || isLineEnd b

/-- A field as it is written; a quote within quotes is doubled. -/
def writeField (field : Bytes) : Bytes :=
  if needsQuotes field then
    quote :: (field.flatMap (fun b => if b = quote then [quote, quote] else [b]) ++ [quote])
  else field

/-- A row as it is written. -/
def writeRow (row : Row) : Bytes := ((row.map writeField).intersperse [comma]).flatten ++ [10]

/-- **The bytes of a table.** -/
def write (rows : List Row) : Bytes := rows.flatMap writeRow

/-! ### Reading -/

/-- Where the reader of a table is: between rows, at the start of a field, within a field, within
quotes, or after the quote that closed them. -/
inductive Mode where
  | between
  | start
  | plain
  | quoted
  | closed
deriving Repr, DecidableEq

/-- The rows from a place on. `field` holds the bytes of the current field and `row` the fields
before it, both backwards. Blank lines are passed over; a quote matters at the start of a field, and
within quotes it is doubled; an open field or row is closed by the end. -/
def scan : Mode → Bytes → Row → Bytes → List Row
  | .between, _, _, [] => []
  | _, field, row, [] => [(field.reverse :: row).reverse]
  | .quoted, field, row, b :: s =>
    if b = quote then scan .closed field row s else scan .quoted (b :: field) row s
  | mode, field, row, b :: s =>
    if mode = .between ∧ isLineEnd b then scan .between [] [] s
    else if b = quote ∧ (mode = .between ∨ mode = .start) then scan .quoted [] row s
    else if b = quote ∧ mode = .closed then scan .quoted (quote :: field) row s
    else if b = comma then scan .start [] (field.reverse :: row) s
    else if isLineEnd b then (field.reverse :: row).reverse :: scan .between [] [] s
    else scan .plain (b :: field) row s

/-- The bytes after a byte order mark, if there is one. -/
def dropMark (s : Bytes) : Bytes :=
  match s with
  | 0xEF :: 0xBB :: 0xBF :: s => s
  | s => s

/-- **The rows of a table.** -/
def rows (s : Bytes) : List Row := scan .between [] [] (dropMark s)

end Table

end Reputation
