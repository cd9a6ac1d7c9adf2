import Reputation.Number.Basic
import Reputation.Failure

/-!
# Vectors

Column vectors over a type of numbers. Operations on two vectors refuse different sizes; an index
outside of a vector is a fault. `Vec.normalize` scales a vector to absolute sum one.
-/

namespace Reputation

open Number

/-- **A vector**, as the list of its entries. -/
@[ext] structure Vec (K : Type) where
  entries : List K
deriving Repr, Inhabited

namespace Vec

variable {K : Type} [Number K]

/-- The vector of `n` zeros. -/
def zeros (n : Nat) : Vec K := ⟨List.replicate n zero⟩

omit [Number K] in
/-- The vector of `n` entries `x`. -/
def filled (n : Nat) (x : K) : Vec K := ⟨List.replicate n x⟩

omit [Number K] in
/-- Number of entries. -/
def size (v : Vec K) : Nat := v.entries.length

omit [Number K] in
/-- The entry at an index. -/
def get (v : Vec K) (i : Nat) : Except Fault K :=
  match v.entries[i]? with
  | some x => .ok x
  | none => .error .outOfRange

omit [Number K] in
/-- The vector with another entry at an index. -/
def set (v : Vec K) (i : Nat) (x : K) : Except Fault (Vec K) :=
  if i < v.size then .ok ⟨v.entries.set i x⟩ else .error .outOfRange

omit [Number K] in
/-- The vector with every entry replaced. -/
def setAll (v : Vec K) (x : K) : Vec K := ⟨v.entries.map fun _ => x⟩

/-- The sum of the entries. -/
def sum (v : Vec K) : K := Number.sum v.entries

/-- The sum of the absolute values of the entries. -/
def absSum (v : Vec K) : K := Number.sum (v.entries.map Number.abs)

/-- The vector scaled to absolute sum one; a vector without mass stays as it is. -/
def normalize (v : Vec K) : Vec K :=
  let total := v.absSum
  if lt zero total then ⟨v.entries.map (· / total)⟩ else v

theorem size_normalize (v : Vec K) : v.normalize.size = v.size := by
  unfold normalize size
  simp only
  split <;> simp

/-- The vector with every entry multiplied by a number. -/
def scale (v : Vec K) (c : K) : Vec K := ⟨v.entries.map (· * c)⟩

/-- Combines two vectors of one size entry by entry. -/
def combine (f : K → K → K) (v w : Vec K) : Except TrustError (Vec K) :=
  if v.size = w.size then .ok ⟨List.zipWith f v.entries w.entries⟩
  else .error (.sizesDiffer v.size w.size)

/-- The entrywise sum. -/
def add (v w : Vec K) : Except TrustError (Vec K) := combine (· + ·) v w

/-- The entrywise product. -/
def mul (v w : Vec K) : Except TrustError (Vec K) := combine (· * ·) v w

/-- The sum of the absolute differences of the entries. -/
def distance (v w : Vec K) : Except TrustError K :=
  (combine (fun a b => Number.abs (a - b)) v w).map sum

/-- Are the sizes equal, and the entries as numbers? -/
def equals (v w : Vec K) : Bool :=
  v.size == w.size && (List.zip v.entries w.entries).all fun (a, b) => eq a b

end Vec

/-- The entries of a vector with three places each, in brackets. -/
def Vec.text (v : Vec Float) : String :=
  "[" ++ ", ".intercalate (v.entries.map (Layout.fixed 3)) ++ "]"

end Reputation
