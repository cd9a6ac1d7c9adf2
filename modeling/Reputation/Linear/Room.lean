import Reputation.Linear.Matrix

/-!
# Room for entries

Entries are held at eight bytes each, and what is held together takes fewer than `2 ^ 63` bytes: the
`capacity` of a vector or a matrix. `Vec.alloc`, `Matrix.alloc`, `Matrix.product` and
`Matrix.transposeProduct` are the operations whose result can be larger than everything that they
are given. They ask for `room` before they make it, and a product asks after its sizes were found to
fit.
-/

namespace Reputation

/-- The most entries that a vector or a matrix can hold. -/
def capacity : Nat := Nat.pow 2 60 - 1

/-- Asks for room for `n` entries. -/
def room (n : Nat) : Except Fault Unit := if n ≤ capacity then .ok () else .error .noRoom

variable {K : Type}

/-- The vector of `n` entries `x`, if there is room for it. -/
def Vec.alloc (n : Nat) (x : K) : Except Fault (Vec K) := do
  room n
  .ok (.filled n x)

variable [Number K]

namespace Matrix

/-- The matrix of zeros, if there is room for it. -/
def alloc (rows cols : Nat) : Except Fault (Matrix K) := do
  room (rows * cols)
  .ok (.zeros rows cols)

/-- The product of a matrix and a vector, if there is room for an entry a row. -/
def product (m : Matrix K) (v : Vec K) : Except Failure (Vec K) := do
  if m.cols = v.size then room m.rows
  m.multiply v

/-- The product of the transposed matrix and a vector, if there is room for an entry a column. -/
def transposeProduct (m : Matrix K) (v : Vec K) : Except Failure (Vec K) := do
  if m.rows = v.size then room m.cols
  m.transposeMultiply v

end Matrix

end Reputation
