import Reputation.Failure
import Reputation.Number.Basic
import Reputation.Records
import Reputation.Table.Basic

/-!
# Tables of records

A `Schema` keeps records in a table: the first row names the columns, and each further row holds one
record. Columns are found by their names, in any order, and other columns are passed over.
`Schema.save` and `Schema.load` are the two directions; a table without records has no rows at all.
-/

namespace Reputation

/-- **A way to keep records in a table.** `read?` gets the fields in the order of the columns. -/
structure Schema (α : Type) where
  columns : List String
  fields : α → List String
  read? : List String → Option α

namespace Schema

variable {α : Type}

/-- **The contents of a file that holds some records.** -/
def save (t : Schema α) (rs : List α) : Bytes :=
  match rs with
  | [] => []
  | rs => Table.write ((t.columns :: rs.map t.fields).map fun row => row.map Bytes.ofString)

/-- The texts of a row, if all its fields are texts. -/
def texts? (row : Row) : Option (List String) := row.mapM Bytes.toString?

/-- The fields of a row under a column. -/
def underColumn (header row : List String) (column : String) : List String :=
  ((List.zip header row).filter fun cell => cell.1 == column).map Prod.snd

/-- The fields of a row in the order of the columns; each column has to be there once. Without a
readable header the columns are taken in their own order. -/
def select? (t : Schema α) (header : Option (List String)) (row : List String) :
    Option (List String) :=
  match header with
  | none => if t.columns.length ≤ row.length then some (row.take t.columns.length) else none
  | some header => t.columns.mapM fun column =>
    match underColumn header row column with
    | [field] => some field
    | _ => none

/-- The record of a row, which has to be as long as the header. -/
def readRow? (t : Schema α) (header row : Row) : Option α := do
  if row.length ≠ header.length then none
  let texts ← texts? row
  let fields ← t.select? (texts? header) texts
  t.read? fields

/-- **The records that a file holds.** -/
def load (t : Schema α) (contents : Bytes) : Except TrustError (List α) :=
  match Table.rows contents with
  | [] => .ok []
  | header :: rows =>
    match rows.mapM (t.readRow? header) with
    | some rs => .ok rs
    | none => .error .badTable

/-! ### Fields -/

/-- A count after the mark of a hexadecimal one. -/
def readHex? (s : List Char) : Option Nat :=
  let ds := match s with
    | '+' :: r => r
    | r => r
  let value? (c : Char) : Option Nat :=
    if c.isDigit then some (c.toNat - 48)
    else if 'a' ≤ c.toLower && c.toLower ≤ 'f' then some (c.toLower.toNat - 87)
    else none
  if ds.isEmpty then none
  else ds.foldlM (fun n c => (value? c).map (16 * n + ·)) 0

/-- A 64-bit count, in decimals or after `0x` in hexadecimals. -/
def readCount? (s : String) : Option UInt64 :=
  let n? := match s.toList with
    | '0' :: 'x' :: r => readHex? r
    | _ => (Reputation.readCount Number.greatestCount s).toOption
  n?.bind fun n => if n ≤ Number.greatestCount then some (UInt64.ofNat n) else none

/-- Tables of experiences. -/
def experience : Schema ExperienceRecord where
  columns := ["observer", "partner", "successful_calls", "failed_calls", "last_update"]
  fields r := [r.observer, r.partner, toString r.successes, toString r.failures, toString r.updated]
  read?
    | [observer, partner, successes, failures, updated] => do
      some { observer, partner, successes := ← readCount? successes,
             failures := ← readCount? failures, updated := ← readCount? updated }
    | _ => none

/-- Tables of statuses. -/
def status : Schema StatusRecord where
  columns := ["node", "status"]
  fields r := [r.peer, r.status.name]
  read?
    | [peer, state] => (Status.ofName? state).map fun status => { peer, status }
    | _ => none

/-- Tables of scores. -/
def score {K : Type} [Number K] : Schema (ScoreRecord K) where
  columns := ["node", "score"]
  fields r := [r.peer, Number.format .table r.score]
  read?
    | [peer, x] => ((Numeral.ofString? x).bind Number.ofNumeral?).map fun score => { peer, score }
    | _ => none

end Schema

end Reputation
