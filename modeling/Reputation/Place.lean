import Reputation.Failure
import Reputation.Text.Bytes

/-!
# Places for files

A `Place` is where a file is, could be, or cannot be. Reading fails without a file, writing fails
without a directory; the two kinds of files report the latter differently.
-/

namespace Reputation

/-- **A place for a file.** -/
inductive Place where
  /-- There is no directory for the file. -/
  | nowhere
  /-- There is no file yet. -/
  | free
  | file (contents : Bytes)
deriving Repr, DecidableEq, Inhabited

namespace Place

/-- The contents of the file, if there is one. -/
def contents? : Place → Option Bytes
  | file b => some b
  | _ => none

/-- The contents of a file that has to be there. -/
def read (p : Place) : Except TrustError Bytes :=
  match p.contents? with
  | some b => .ok b
  | none => .error .missingFile

/-- The place after contents were written to it; `refusal` is the error where that cannot be. -/
def write (refusal : TrustError) (p : Place) (contents : Bytes) : Except TrustError Place :=
  match p with
  | nowhere => .error refusal
  | _ => .ok (file contents)

/-- Writes a table. -/
def writeTable : Place → Bytes → Except TrustError Place := write .unwritableTable

/-- Writes a document. -/
def writeDocument : Place → Bytes → Except TrustError Place := write .unwritableFile

end Place

end Reputation
