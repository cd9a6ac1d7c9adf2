import Reputation.Linear.Vec

/-!
# Matrices

Matrices stored row after row in one list of cells. `Matrix.get` and `Matrix.set` find the cell of
row `i` and column `j` at `i * cols + j`, and only that place has to exist. `Matrix.toRows` is the
view that every other operation is written through; `Matrix.ofRows` refuses rows of different sizes.
-/

namespace Reputation

open Number

/-- **A matrix**, as its row-major list of cells. -/
@[ext] structure Matrix (K : Type) where
  rows : Nat
  cols : Nat
  cells : List K
  size_eq : cells.length = rows * cols

namespace Matrix

variable {K : Type}

/-! ### Building -/

/-- Cuts a list into `n` pieces of size `k`. -/
def pieces (k : Nat) : Nat → List K → List (List K)
  | 0, _ => []
  | n + 1, xs => xs.take k :: pieces k n (xs.drop k)

theorem length_flatten_of_forall {k : Nat} {xss : List (List K)} (h : ∀ xs ∈ xss, xs.length = k) :
    xss.flatten.length = xss.length * k := by
  induction xss with
  | nil => simp
  | cons xs xss ih =>
    simp only [List.flatten_cons, List.length_append, List.length_cons]
    rw [ih fun ys hy => h ys (List.mem_cons_of_mem _ hy), h xs List.mem_cons_self, Nat.succ_mul,
      Nat.add_comm]

/-- The matrix with the given rows, all of size `k`. -/
def ofVecs (k : Nat) (vs : List (Vec K)) (h : ∀ v ∈ vs, v.size = k) : Matrix K where
  rows := vs.length
  cols := k
  cells := (vs.map Vec.entries).flatten
  size_eq := by
    rw [length_flatten_of_forall (k := k)]
    · simp
    · intro xs hx
      obtain ⟨v, hv, rfl⟩ := List.mem_map.mp hx
      exact h v hv

/-- The first row, with its index, whose size is not `k`. -/
def firstRagged? (k : Nat) : Nat → List (Vec K) → Option (Nat × Nat)
  | _, [] => none
  | i, v :: vs => if v.size = k then firstRagged? k (i + 1) vs else some (i, v.size)

theorem size_of_firstRagged?_eq_none {k i : Nat} {vs : List (Vec K)}
    (h : firstRagged? k i vs = none) : ∀ v ∈ vs, v.size = k := by
  induction vs generalizing i with
  | nil => simp
  | cons v vs ih =>
    unfold firstRagged? at h
    split at h
    · intro w hw
      rcases List.mem_cons.mp hw with rfl | hw
      · assumption
      · exact ih h w hw
    · simp at h

/-- The matrix with the given rows; the first row fixes the number of columns. -/
def ofRows (vs : List (Vec K)) : Except TrustError (Matrix K) :=
  let k := (vs.head?.map Vec.size).getD 0
  match h : firstRagged? k 0 vs with
  | none => .ok (ofVecs k vs (size_of_firstRagged?_eq_none h))
  | some (i, size) => .error (.raggedRow i size k)

/-- The matrix of zeros. -/
def zeros [Number K] (rows cols : Nat) : Matrix K where
  rows := rows
  cols := cols
  cells := List.replicate (rows * cols) zero
  size_eq := List.length_replicate

/-! ### Cells and rows -/

/-- The rows. -/
def toRows (m : Matrix K) : List (Vec K) := (pieces m.cols m.rows m.cells).map Vec.mk

/-- The cell at row `i` and column `j`. -/
def get (m : Matrix K) (i j : Nat) : Except Fault K :=
  match m.cells[i * m.cols + j]? with
  | some x => .ok x
  | none => .error .outOfRange

/-- The matrix with another cell at row `i` and column `j`. -/
def set (m : Matrix K) (i j : Nat) (x : K) : Except Fault (Matrix K) :=
  if i * m.cols + j < m.cells.length then
    .ok { m with cells := m.cells.set (i * m.cols + j) x, size_eq := by simp [m.size_eq] }
  else .error .outOfRange

/-- The row at an index. -/
def row (m : Matrix K) (i : Nat) : Except Fault (Vec K) :=
  if i * m.cols + m.cols ≤ m.cells.length then .ok ⟨(m.cells.drop (i * m.cols)).take m.cols⟩
  else .error .outOfRange

/-- Applies a function to every row. -/
def mapRows (f : Vec K → Vec K) (hf : ∀ v, (f v).size = v.size) (m : Matrix K) : Matrix K where
  rows := m.rows
  cols := m.cols
  cells := (m.toRows.map fun v => (f v).entries).flatten
  size_eq := by
    obtain ⟨rows, cols, cells, h⟩ := m
    simp only [toRows, List.map_map]
    induction rows generalizing cells with
    | zero => simp [pieces]
    | succ n ih =>
      have hs : (cells.drop cols).length = n * cols := by
        rw [List.length_drop, h, Nat.succ_mul]; omega
      have hf' := hf ⟨cells.take cols⟩
      simp only [Vec.size, List.length_take] at hf'
      simp only [pieces, List.map_cons, List.flatten_cons, List.length_append, ih _ hs,
        Function.comp, hf', h, Nat.succ_mul]
      omega

variable [Number K]

/-- The sum of the absolute values of the cells. -/
def absSum (m : Matrix K) : K := Number.sum (m.cells.map Number.abs)

/-- The matrix with every row scaled to absolute sum one. -/
def normalizeRows (m : Matrix K) : Matrix K := m.mapRows Vec.normalize Vec.size_normalize

/-! ### Products -/

/-- The sum of the products of two lists of entries, added up from zero. -/
def dot (xs ys : List K) : K := (List.zip xs ys).foldl (fun s (x, y) => s + x * y) zero

/-- The product of a matrix and a vector. -/
def multiply (m : Matrix K) (v : Vec K) : Except TrustError (Vec K) :=
  if m.cols = v.size then .ok ⟨m.toRows.map fun r => dot r.entries v.entries⟩
  else .error (.columnsDiffer m.cols v.size)

/-- Adds `weight` times a row to what the rows before it gave; a row of weight zero adds nothing. -/
def addWeighted (result : List K) (weight : K) (r : List K) : List K :=
  if eq weight zero then result else List.zipWith (fun s x => s + x * weight) result r

/-- The product of the transposed matrix and a vector, added up row by row. -/
def transposeMultiply (m : Matrix K) (v : Vec K) : Except TrustError (Vec K) :=
  if m.rows = v.size then
    .ok ⟨(List.zip v.entries m.toRows).foldl (fun s (w, r) => addWeighted s w r.entries)
      (List.replicate m.cols zero)⟩
  else .error (.rowsDiffer m.rows v.size)

end Matrix

end Reputation
