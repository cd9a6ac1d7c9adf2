import Reputation.Document.Basic

/-!
# Reading documents

`Document.read?` reads a whole file as one JSON value with blanks around it. Strings may hold any
bytes and any escaped code unit; pairs of surrogates are joined, and a lone one is kept in three
bytes that are no text.
-/

namespace Reputation

namespace Document

/-- A blank between the parts of a document. -/
def isSpace (b : UInt8) : Bool := b == 32 || b == 9 || b == 10 || b == 13

/-- The bytes after the blanks. -/
def skip (s : Bytes) : Bytes := s.dropWhile isSpace

/-! ### Strings -/

/-- A part of a string: a byte as it stands, or an escaped code unit. -/
inductive Piece where
  | byte (b : UInt8)
  | unit (n : Nat)
deriving Repr, DecidableEq

/-- Where the reader of a string is: between characters, after a backslash, or after some digits of
a code unit. -/
inductive StringMode where
  | plain
  | escaped
  | digits (count value : Nat)

/-- The byte that a letter after a backslash stands for. -/
def unescape? (b : UInt8) : Option UInt8 :=
  if b = Bytes.ascii '"' ∨ b = Bytes.ascii '\\' ∨ b = Bytes.ascii '/' then some b
  else if b = Bytes.ascii 'b' then some 8
  else if b = Bytes.ascii 'f' then some 12
  else if b = Bytes.ascii 'n' then some 10
  else if b = Bytes.ascii 'r' then some 13
  else if b = Bytes.ascii 't' then some 9
  else none

/-- The value of a hexadecimal digit. -/
def hexValue? (b : UInt8) : Option Nat :=
  let n := b.toNat
  if 48 ≤ n && n ≤ 57 then some (n - 48)
  else if 65 ≤ n && n ≤ 70 then some (n - 55)
  else if 97 ≤ n && n ≤ 102 then some (n - 87)
  else none

/-- Puts a piece before those that were read after it. -/
def before (p : Piece) (r : Option (List Piece × Bytes)) : Option (List Piece × Bytes) :=
  r.map fun (ps, s) => (p :: ps, s)

/-- The pieces of a string up to its closing quote, and the bytes after it. Controls have to be
escaped. -/
def pieces : StringMode → Bytes → Option (List Piece × Bytes)
  | _, [] => none
  | .plain, b :: s =>
    if b = Bytes.ascii '"' then some ([], s)
    else if b = Bytes.ascii '\\' then pieces .escaped s
    else if b < 32 then none
    else before (.byte b) (pieces .plain s)
  | .escaped, b :: s =>
    if b = Bytes.ascii 'u' then pieces (.digits 0 0) s
    else match unescape? b with
      | some c => before (.byte c) (pieces .plain s)
      | none => none
  | .digits count value, b :: s =>
    match hexValue? b with
    | some d =>
      if count = 3 then before (.unit (16 * value + d)) (pieces .plain s)
      else pieces (.digits (count + 1) (16 * value + d)) s
    | none => none

/-- The bytes of a code point in UTF-8; those of a surrogate follow the same pattern. -/
def encodePoint (n : Nat) : Bytes :=
  let tail (k : Nat) := UInt8.ofNat (0x80 + n / Nat.pow 64 k % 64)
  if n < 0x80 then [UInt8.ofNat n]
  else if n < 0x800 then [UInt8.ofNat (0xC0 + n / 64), tail 0]
  else if n < 0x10000 then [UInt8.ofNat (0xE0 + n / Nat.pow 64 2), tail 1, tail 0]
  else [UInt8.ofNat (0xF0 + n / Nat.pow 64 3), tail 2, tail 1, tail 0]

/-- Is the code unit the first of a pair of surrogates? -/
def isHighSurrogate (n : Nat) : Bool := 0xD800 ≤ n && n < 0xDC00

/-- Is the code unit the second of a pair of surrogates? -/
def isLowSurrogate (n : Nat) : Bool := 0xDC00 ≤ n && n < 0xE000

/-- The bytes of a string. -/
def join : List Piece → Bytes
  | [] => []
  | .byte b :: ps => b :: join ps
  | .unit n :: .unit m :: ps =>
    if isHighSurrogate n && isLowSurrogate m then
      encodePoint (0x10000 + (n - 0xD800) * 0x400 + (m - 0xDC00)) ++ join ps
    else encodePoint n ++ join (.unit m :: ps)
  | .unit n :: ps => encodePoint n ++ join ps

/-- A string after its opening quote. -/
def readString (s : Bytes) : Option (Bytes × Bytes) :=
  (pieces .plain s).map fun (ps, s) => (join ps, s)

/-! ### Numbers -/

/-- The digits that some bytes start with, and the bytes after them. -/
def splitDigits (s : Bytes) : Bytes × Bytes := (s.takeWhile Bytes.isDigit, s.dropWhile Bytes.isDigit)

/-- The digits before the point: one zero, or no zero in front. -/
def readWhole (s : Bytes) : Option (Bytes × Bytes) :=
  match splitDigits s with
  | ([], _) => none
  | ([d], s) => some ([d], s)
  | (d :: ds, s) => if d = Bytes.ascii '0' then none else some (d :: ds, s)

/-- A point and digits, or nothing. -/
def readFraction (s : Bytes) : Option (Bytes × Bytes) :=
  match s with
  | [] => some ([], [])
  | b :: r =>
    if b = Bytes.ascii '.' then
      match splitDigits r with
      | ([], _) => none
      | (ds, r) => some (b :: ds, r)
    else some ([], b :: r)

/-- The letter e, a sign or none, and digits; or nothing. -/
def readExponent (s : Bytes) : Option (Bytes × Bytes) :=
  match s with
  | [] => some ([], [])
  | b :: r =>
    if b = Bytes.ascii 'e' ∨ b = Bytes.ascii 'E' then
      let (sign, r) := match r with
        | c :: r' => if c = Bytes.ascii '+' ∨ c = Bytes.ascii '-' then ([c], r') else ([], r)
        | [] => ([], r)
      match splitDigits r with
      | ([], _) => none
      | (ds, r) => some (b :: (sign ++ ds), r)
    else some ([], b :: r)

/-- A number as it is written. -/
def readNumber (s : Bytes) : Option (String × Bytes) := do
  let (sign, s) := match s with
    | b :: r => if b = Bytes.ascii '-' then ([b], r) else ([], s)
    | [] => ([], s)
  let (whole, s) ← readWhole s
  let (fraction, s) ← readFraction s
  let (exponent, s) ← readExponent s
  some (Bytes.asciiText (sign ++ whole ++ fraction ++ exponent), s)

/-! ### Values -/

/-- A word as a value. -/
def readWord (word : String) (d : Document) (s : Bytes) : Option (Document × Bytes) :=
  (Bytes.expect? word s).map fun s => (d, s)

/-- A key and the colon after it. -/
def readKey (s : Bytes) : Option (Bytes × Bytes) :=
  match skip s with
  | b :: r =>
    if b = Bytes.ascii '"' then
      match readString r with
      | none => none
      | some (k, r) =>
        match skip r with
        | c :: r => if c = Bytes.ascii ':' then some (k, r) else none
        | [] => none
    else none
  | [] => none

mutual

/-- A value, and the bytes after it. Each step inwards or onwards uses up a unit of fuel. -/
def readValue : Nat → Bytes → Option (Document × Bytes)
  | 0, _ => none
  | fuel + 1, s =>
    match skip s with
    | [] => none
    | b :: r =>
      if b = Bytes.ascii '"' then (readString r).map fun (content, r) => (string content, r)
      else if b = Bytes.ascii '[' then
        match skip r with
        | c :: r' =>
          if c = Bytes.ascii ']' then some (array [], r')
          else (readItems fuel r).map fun (ds, r) => (array ds, r)
        | [] => none
      else if b = Bytes.ascii '{' then
        match skip r with
        | c :: r' =>
          if c = Bytes.ascii '}' then some (object [], r')
          else (readMembers fuel r).map fun (ms, r) => (object ms, r)
        | [] => none
      else if b = Bytes.ascii 'n' then readWord "null" null (b :: r)
      else if b = Bytes.ascii 't' then readWord "true" (bool true) (b :: r)
      else if b = Bytes.ascii 'f' then readWord "false" (bool false) (b :: r)
      else (readNumber (b :: r)).map fun (text, r) => (number text, r)

/-- Items up to the closing bracket, at least one. -/
def readItems : Nat → Bytes → Option (List Document × Bytes)
  | 0, _ => none
  | fuel + 1, s =>
    match readValue fuel s with
    | none => none
    | some (d, s) =>
      match skip s with
      | b :: r =>
        if b = Bytes.ascii ',' then (readItems fuel r).map fun (ds, r) => (d :: ds, r)
        else if b = Bytes.ascii ']' then some ([d], r)
        else none
      | [] => none

/-- Members up to the closing brace, at least one. -/
def readMembers : Nat → Bytes → Option (List (Bytes × Document) × Bytes)
  | 0, _ => none
  | fuel + 1, s =>
    match readKey s with
    | none => none
    | some (k, s) =>
      match readValue fuel s with
      | none => none
      | some (d, s) =>
        match skip s with
        | b :: r =>
          if b = Bytes.ascii ',' then (readMembers fuel r).map fun (ms, r) => ((k, d) :: ms, r)
          else if b = Bytes.ascii '}' then some ([(k, d)], r)
          else none
        | [] => none

end

/-- **The document in a file**, with nothing but blanks around it. A value takes at most two units of
fuel for each of its bytes. -/
def read? (s : Bytes) : Option Document :=
  match readValue (2 * s.length + 2) s with
  | some (d, rest) => if (skip rest).isEmpty then some d else none
  | none => none

end Document

end Reputation
