import Reputation.Proofs.Linear.Cells
import Reputation.Proofs.Linear.Distribution

/-! # The transposed product

The product of the transpose is added up row by row into one vector, without a transposed matrix, and
passes over the rows of weight zero. Each entry of it is a sum down a column
(`Matrix.transposeMultiply_eq`), as each entry of a product is a sum along a row
(`Matrix.multiply_eq`). Of a matrix that is transposed cell by cell, the rows are these columns:
`Matrix.transposeProduct_eq`. -/

namespace Reputation

namespace Matrix

variable {K : Type}

/-! ### Tables of any shape -/

/-- **The matrix of the values of a function** of a row and a column. -/
def ofFn (rows cols : ℕ) (M : ℕ → ℕ → K) : Matrix K :=
  ofVecs cols ((List.range rows).map fun i => Vec.tabulate (List.range cols) (M i)) (by simp)

@[simp] theorem rows_ofFn (rows cols : ℕ) (M : ℕ → ℕ → K) : (ofFn rows cols M).rows = rows := by
  simp [ofFn, ofVecs]

@[simp] theorem cols_ofFn (rows cols : ℕ) (M : ℕ → ℕ → K) : (ofFn rows cols M).cols = cols := rfl

theorem get_ofFn {rows cols i j : ℕ} (M : ℕ → ℕ → K) (hi : i < rows) (hj : j < cols) :
    (ofFn rows cols M).get i j = .ok (M i j) :=
  get_of_toRows_eq (toRows_ofVecs _) (List.getElem?_range hi) (List.getElem?_range hj)

theorem get_eq_cell {m : Matrix ℚ} {i j : ℕ} (hi : i < m.rows) (hj : j < m.cols) :
    m.get i j = .ok (m.cell i j) := by
  obtain ⟨x, hx⟩ := exists_get (place_lt hi hj)
  unfold cell
  rw [hx]
  rfl

theorem toRows_eq_cell (m : Matrix ℚ) :
    m.toRows = (List.range m.rows).map fun i => Vec.tabulate (List.range m.cols) (m.cell i) := by
  rw [m.toRows_eq_map]
  refine List.map_congr_left fun i _ => Vec.tabulate_congr fun j _ => ?_
  exact (m.cell_eq_getD i j).symm

/-! ### The transpose -/

/-- **A transposed matrix**: the cells of another one, with rows and columns exchanged. -/
structure Transposes (t m : Matrix K) : Prop where
  rows_eq : t.rows = m.cols
  cols_eq : t.cols = m.rows
  get_eq : ∀ i < m.rows, ∀ j < m.cols, t.get j i = m.get i j

/-- The transpose, written cell by cell. -/
def transpose (m : Matrix ℚ) : Matrix ℚ := ofFn m.cols m.rows fun j i => m.cell i j

theorem transposes_transpose (m : Matrix ℚ) : m.transpose.Transposes m where
  rows_eq := rows_ofFn m.cols m.rows _
  cols_eq := cols_ofFn m.cols m.rows _
  get_eq i hi j hj := by
    rw [get_eq_cell hi hj]
    exact get_ofFn _ hj hi

theorem Transposes.cell_eq {t m : Matrix ℚ} (h : t.Transposes m) {i j : ℕ} (hi : i < m.rows)
    (hj : j < m.cols) : t.cell j i = m.cell i j := by
  unfold cell
  rw [h.get_eq i hi j hj]

/-! ### Products as sums -/

theorem dot_map {ι : Type} (is : List ι) (f g : ι → ℚ) :
    dot (is.map f) (is.map g) = (is.map fun i => f i * g i).sum := by
  unfold dot
  rw [List.zip_map', List.foldl_map, List.sum_eq_foldl, List.foldl_map]
  rfl

/-- **A product has a sum along a row** for each entry. -/
theorem multiply_eq (m : Matrix ℚ) {v : Vec ℚ} (h : v.size = m.cols) :
    m.multiply v = .ok (Vec.tabulate (List.range m.rows) fun i =>
      ((List.range m.cols).map fun j => m.cell i j * v.entry j).sum) := by
  unfold multiply
  rw [if_pos h.symm, m.toRows_eq_cell, List.map_map, Vec.entries_eq_map h]
  refine congrArg (fun xs => Except.ok (Vec.mk xs)) (List.map_congr_left fun i _ => ?_)
  exact dot_map (List.range m.cols) (m.cell i) v.entry

/-- **A transposed product has a sum down a column** for each entry. -/
theorem transposeMultiply_eq (m : Matrix ℚ) {v : Vec ℚ} (h : v.size = m.rows) :
    m.transposeMultiply v = .ok (Vec.tabulate (List.range m.cols) fun j =>
      ((List.range m.rows).map fun i => m.cell i j * v.entry i).sum) := by
  have hzero : List.replicate m.cols (Number.zero : ℚ) = (List.range m.cols).map fun _ => 0 := by
    rw [List.map_const', List.length_range]
    rfl
  unfold transposeMultiply
  rw [if_pos h.symm, m.toRows_eq_cell, Vec.entries_eq_map h, hzero, foldl_addWeighted]
  refine congrArg (fun xs => Except.ok (Vec.mk xs)) (List.map_congr_left fun j _ => ?_)
  -- The sum that passes over the weights of zero is `inflow`.
  refine (inflow_eq (List.range m.rows) v.entry m.cell j).trans ?_
  simp only [mul_comm (v.entry _)]

/-- **The transposed product is the product of the transpose**, for all vectors of fitting size. -/
theorem Transposes.multiply_eq {t m : Matrix ℚ} (ht : t.Transposes m) {v : Vec ℚ}
    (h : v.size = m.rows) : t.multiply v = m.transposeMultiply v := by
  rw [Matrix.multiply_eq t (h.trans ht.cols_eq.symm), transposeMultiply_eq m h, ht.rows_eq,
    ht.cols_eq]
  refine congrArg Except.ok (Vec.tabulate_congr fun j hj => congrArg List.sum ?_)
  refine List.map_congr_left fun i hi => ?_
  rw [ht.cell_eq (List.mem_range.mp hi) (List.mem_range.mp hj)]

/-! ### Products of built matrices -/

/-- **The transposed product of a built matrix** is refused for a vector of another size than its
number of rows, and only then; otherwise it is the product of the transpose, entry by entry. A matrix
without rows may have more columns than a vector can hold entries, so it has to have one. -/
theorem transposeProduct_eq {rows cols : ℕ} {m : Matrix ℚ} (hm : Built rows cols m)
    (hrows : rows ≠ 0) (v : Vec ℚ) :
    m.transpose.Transposes m ∧
      (v.size ≠ rows → m.transposeProduct v = .error (.error (.rowsDiffer rows v.size))) ∧
      (v.size = rows → ∃ w, m.transposeProduct v = .ok w ∧ w.size = cols ∧
        ∀ t : Matrix ℚ, t.Transposes m → t.product v = .ok w) := by
  have hcols := hm.cols_le hrows
  obtain ⟨rfl, rfl⟩ := hm.shaped
  refine ⟨m.transposes_transpose, fun h => ?_, fun h => ?_⟩
  · unfold transposeProduct transposeMultiply
    rw [if_neg (Ne.symm h), if_neg (Ne.symm h)]
    rfl
  · have hroom : room m.cols = .ok () := if_pos hcols
    obtain ⟨w, hw, hsize⟩ : ∃ w, m.transposeMultiply v = .ok w ∧ w.size = m.cols :=
      ⟨_, transposeMultiply_eq m h, (Vec.size_tabulate _ _).trans List.length_range⟩
    refine ⟨w, ?_, hsize, fun t ht => ?_⟩
    · unfold transposeProduct
      rw [if_pos h.symm, hroom, hw]
      rfl
    · unfold product
      rw [if_pos (ht.cols_eq.trans h.symm), ht.rows_eq, hroom, ht.multiply_eq h, hw]
      rfl

/-- Three rows of two cells, of which the second has weight zero. -/
theorem transposeProduct_eq_oblong :
    let m : Matrix ℚ := ⟨3, 2, [1, 2, 3, 4, 5, 6], rfl⟩
    Built 3 2 m ∧ 3 ≠ 0 ∧ m.transposeProduct ⟨[1, 0, 2]⟩ = .ok ⟨[11, 14]⟩ ∧
      m.transpose.product ⟨[1, 0, 2]⟩ = .ok ⟨[11, 14]⟩ ∧
      m.transposeProduct ⟨[1, 0]⟩ = .error (.error (.rowsDiffer 3 2)) := by
  intro m
  have hm : Built 3 2 m := .ofRows [⟨[1, 2]⟩, ⟨[3, 4]⟩, ⟨[5, 6]⟩] (by decide) rfl
  have hvalue : (m.transposeProduct ⟨[1, 0, 2]⟩).toOption.map Vec.entries = some [11, 14] := by
    decide +kernel
  obtain ⟨ht, -, hproduct⟩ := transposeProduct_eq hm (by decide) ⟨[1, 0, 2]⟩
  obtain ⟨w, hw, -, hall⟩ := hproduct rfl
  have hwv : w = ⟨[11, 14]⟩ := by
    rw [hw] at hvalue
    exact Vec.ext (Option.some.inj hvalue)
  exact ⟨hm, by decide, hwv ▸ hw, hwv ▸ hall _ ht,
    (transposeProduct_eq hm (by decide) ⟨[1, 0]⟩).2.1 (by decide)⟩

/-- Without rows there may be no room for the product. -/
example : (alloc 0 (capacity + 1) >>= fun m : Matrix ℚ =>
    .ok (m.transposeProduct ⟨[]⟩)) = .ok (.error (.fault .noRoom)) := rfl

end Matrix

end Reputation
