import Mathlib.Tactic.SplitIfs
import Reputation.Linear.Room
import Reputation.Proofs.Failure
import Reputation.Proofs.Linear.Tabulated
import Reputation.Proofs.Number.Exact

/-! # The cells of a matrix

The cell of row `i` and column `j` lies at place `i * cols + j` of one list of cells, and only the
place is looked at (`Matrix.get_congr`, `Matrix.set_congr`). Inside of the matrix a place belongs to
one row and one column (`place_inj`), so a cell that is written leaves all others alone
(`Matrix.get_of_set_eq_ok`). Beyond the last column the places go on with the next rows
(`place_wrap`): an index is refused where its place is behind the last row, and not for its column.

A matrix is `Built` with its numbers of rows and columns, and no edit changes them
(`Matrix.Shaped.edit`, `Matrix.Shaped.edits`). What this makes of reading and writing after any edits
is `Matrix.edits_addressed`. -/

namespace Reputation

open Number

/-! ### Entries and cells -/

/-- The entry at an index, zero outside. -/
def Vec.entry (v : Vec ℚ) (i : ℕ) : ℚ := (v.get i).toOption.getD 0

/-- The cell at a row and a column, zero outside. -/
def Matrix.cell (m : Matrix ℚ) (i j : ℕ) : ℚ := (m.get i j).toOption.getD 0

theorem Vec.entry_eq_getD (v : Vec ℚ) (i : ℕ) : v.entry i = v.entries.getD i 0 := by
  unfold entry get
  rw [List.getD_eq_getElem?_getD]
  cases v.entries[i]? <;> rfl

theorem Matrix.cell_eq_getD (m : Matrix ℚ) (i j : ℕ) :
    m.cell i j = m.cells.getD (i * m.cols + j) 0 := by
  unfold cell get
  rw [List.getD_eq_getElem?_getD]
  cases m.cells[i * m.cols + j]? <;> rfl

theorem Vec.eq_tabulate_entry {v : Vec ℚ} {n : ℕ} (h : v.size = n) :
    v = tabulate (List.range n) v.entry := by
  have hv := v.tabulate_range
  rw [h] at hv
  exact hv.trans (tabulate_congr fun i _ => (v.entry_eq_getD i).symm)

theorem Vec.entries_eq_map {v : Vec ℚ} {n : ℕ} (h : v.size = n) :
    v.entries = (List.range n).map v.entry :=
  congrArg Vec.entries (Vec.eq_tabulate_entry h)

theorem Vec.entry_tabulate {n : ℕ} (f : ℕ → ℚ) {i : ℕ} (hi : i < n) :
    (tabulate (List.range n) f).entry i = f i := by
  simp [entry_eq_getD, hi]

/-! ### Places -/

section Place
variable {rows cols i j k l : ℕ}

theorem place_lt (hi : i < rows) (hj : j < cols) : i * cols + j < rows * cols := by
  have h := Nat.mul_le_mul_right cols (Nat.succ_le_of_lt hi)
  rw [Nat.succ_mul] at h
  omega

theorem le_place (hi : rows ≤ i) : rows * cols ≤ i * cols + j :=
  (Nat.mul_le_mul_right cols hi).trans (Nat.le_add_right _ j)

/-- **Inside, a place belongs to one row and one column.** The bound of the columns is needed: it is
what keeps the place of the last column apart from the next row. -/
theorem place_inj (hj : j < cols) (hl : l < cols) (h : i * cols + j = k * cols + l) :
    i = k ∧ j = l := by
  have hcol : j = l := by
    have hmod : (i * cols + j) % cols = (k * cols + l) % cols := by rw [h]
    rwa [Nat.mul_add_mod_of_lt hj, Nat.mul_add_mod_of_lt hl] at hmod
  subst hcol
  exact ⟨Nat.eq_of_mul_eq_mul_right (Nat.zero_lt_of_lt hj) (Nat.add_right_cancel h), rfl⟩

/-- **Beyond the last column the places go on with the next rows.** -/
theorem place_wrap (cols i j : ℕ) : (i + j / cols) * cols + j % cols = i * cols + j := by
  rw [Nat.add_mul, Nat.add_assoc, Nat.mul_comm (j / cols), Nat.div_add_mod]

theorem lt_of_place_lt (h : i * cols + j < rows * cols) : i < rows :=
  Nat.lt_of_mul_lt_mul_right ((Nat.le_add_right _ j).trans_lt h)

end Place

namespace Matrix

variable {K : Type}

/-! ### Reading and writing one cell -/

section Access
variable {m m' : Matrix K} {i j k l : ℕ} {x : K}

theorem get_congr (m : Matrix K) (h : i * m.cols + j = k * m.cols + l) : m.get i j = m.get k l := by
  unfold get
  rw [h]

theorem set_congr (m : Matrix K) (h : i * m.cols + j = k * m.cols + l) (x : K) :
    m.set i j x = m.set k l x := by
  unfold set
  simp only [h]

theorem exists_get (h : i * m.cols + j < m.rows * m.cols) : ∃ x, m.get i j = .ok x := by
  rw [← m.size_eq] at h
  unfold get
  rw [List.getElem?_eq_getElem h]
  exact ⟨_, rfl⟩

theorem get_eq_error (h : m.rows * m.cols ≤ i * m.cols + j) : m.get i j = .error .outOfRange := by
  rw [← m.size_eq] at h
  unfold get
  rw [List.getElem?_eq_none h]

theorem exists_set (h : i * m.cols + j < m.rows * m.cols) (x : K) : ∃ m', m.set i j x = .ok m' := by
  rw [← m.size_eq] at h
  exact ⟨_, if_pos h⟩

theorem set_eq_error (h : m.rows * m.cols ≤ i * m.cols + j) (x : K) :
    m.set i j x = .error .outOfRange := by
  rw [← m.size_eq] at h
  exact if_neg (not_lt.mpr h)

/-- **A written cell** keeps the shape, is read back, and leaves the cells at other places alone. -/
theorem get_of_set_eq_ok (h : m.set i j x = .ok m') :
    (m'.rows = m.rows ∧ m'.cols = m.cols) ∧ m'.get i j = .ok x ∧
      ∀ k l, i * m.cols + j ≠ k * m.cols + l → m'.get k l = m.get k l := by
  unfold set at h
  split_ifs at h with hlt
  cases h
  refine ⟨⟨rfl, rfl⟩, ?_, fun k l hne => ?_⟩
  · unfold get
    rw [List.getElem?_set_self hlt]
  · unfold get
    rw [List.getElem?_set_ne hne]

end Access

/-! ### Edits -/

/-- **A change of a matrix**: one cell is written, or every row is normalized. -/
inductive Edit (K : Type) where
  | set (i j : ℕ) (x : K)
  | normalizeRows

/-- A matrix of some numbers of rows and columns. -/
structure Shaped (rows cols : ℕ) (m : Matrix K) : Prop where
  rows_eq : m.rows = rows
  cols_eq : m.cols = cols

variable [Number K]

/-- The matrix after one change. -/
def edit (m : Matrix K) : Edit K → Except Fault (Matrix K)
  | .set i j x => m.set i j x
  | .normalizeRows => .ok m.normalizeRows

/-- The matrix after one change after the other. -/
def edits (m : Matrix K) (es : List (Edit K)) : Except Fault (Matrix K) := es.foldlM edit m

/-- **The ways to make a matrix**: of zeros, if there is room for them, or of rows of one size, each
of which could be held. -/
inductive Built : ℕ → ℕ → Matrix K → Prop where
  | alloc {rows cols : ℕ} {m : Matrix K} (h : alloc rows cols = .ok m) : Built rows cols m
  | ofRows (vs : List (Vec K)) {m : Matrix K} (fits : ∀ v ∈ vs, v.size ≤ capacity)
    (h : ofRows vs = .ok m) : Built vs.length ((vs.head?.map Vec.size).getD 0) m

theorem Built.shaped {rows cols : ℕ} {m : Matrix K} (h : Built rows cols m) : m.Shaped rows cols := by
  cases h with
  | alloc h =>
    obtain ⟨-, -, h⟩ := bind_eq_ok h
    cases h
    exact ⟨rfl, rfl⟩
  | ofRows _ _ h =>
    unfold Matrix.ofRows at h
    simp only at h
    split at h
    · cases h
      exact ⟨rfl, rfl⟩
    · cases h

/-- If a built matrix has rows, there is room for an entry a column. -/
theorem Built.cols_le {rows cols : ℕ} {m : Matrix K} (h : Built rows cols m) (hrows : rows ≠ 0) :
    cols ≤ capacity := by
  cases h with
  | alloc h =>
    obtain ⟨_, hroom, -⟩ := bind_eq_ok h
    unfold room at hroom
    split_ifs at hroom with hle
    exact (Nat.le_mul_of_pos_left cols (Nat.pos_of_ne_zero hrows)).trans hle
  | ofRows vs fits h =>
    cases vs with
    | nil => exact absurd rfl hrows
    | cons v vs => exact fits v List.mem_cons_self

section Run
variable {rows cols : ℕ} {m m' : Matrix K}

/-- **No change changes the shape.** -/
theorem Shaped.edit (hm : m.Shaped rows cols) {e : Edit K} (h : m.edit e = .ok m') :
    m'.Shaped rows cols := by
  cases e with
  | set i j x =>
    obtain ⟨⟨hrows, hcols⟩, -, -⟩ := get_of_set_eq_ok h
    exact ⟨hrows.trans hm.rows_eq, hcols.trans hm.cols_eq⟩
  | normalizeRows =>
    cases h
    exact ⟨hm.rows_eq, hm.cols_eq⟩

theorem Shaped.edits (hm : m.Shaped rows cols) {es : List (Edit K)} (h : m.edits es = .ok m') :
    m'.Shaped rows cols := by
  induction es generalizing m with
  | nil => cases h; exact hm
  | cons e es ih =>
    unfold Matrix.edits at h
    rw [List.foldlM_cons] at h
    obtain ⟨m₁, he, hes⟩ := bind_eq_ok h
    exact ih (hm.edit he) hes

/-- A change goes through if it writes at a place of the matrix, or none. -/
theorem Shaped.exists_edit_iff (hm : m.Shaped rows cols) {e : Edit K} :
    (∃ m', m.edit e = .ok m') ↔ ∀ i j x, e = .set i j x → i * cols + j < rows * cols := by
  rw [← hm.rows_eq, ← hm.cols_eq]
  cases e with
  | set i j x =>
    constructor
    · rintro ⟨m', h⟩ _ _ _ he
      cases he
      rcases lt_or_ge (i * m.cols + j) (m.rows * m.cols) with hlt | hge
      · exact hlt
      · have herror : m.edit (.set i j x) = .error .outOfRange := set_eq_error hge x
        rw [herror] at h
        cases h
    · exact fun h => exists_set (h i j x rfl) x
  | normalizeRows => exact iff_of_true ⟨_, rfl⟩ fun _ _ _ h => by cases h

/-- **Changes go through** if each writes at a place of the matrix that was there at the start. -/
theorem Shaped.exists_edits_iff (hm : m.Shaped rows cols) {es : List (Edit K)} :
    (∃ m', m.edits es = .ok m') ↔ ∀ i j x, .set i j x ∈ es → i * cols + j < rows * cols := by
  -- The first change leaves a matrix of the same shape, so the places of the others are those of `m`.
  induction es generalizing m with
  | nil => exact iff_of_true ⟨m, rfl⟩ fun _ _ _ h => by cases h
  | cons e es ih =>
    unfold Matrix.edits
    rw [List.foldlM_cons]
    constructor
    · rintro ⟨m', h⟩ i j x hmem
      obtain ⟨m₁, he, hes⟩ := bind_eq_ok h
      rcases List.mem_cons.mp hmem with rfl | hmem
      · exact hm.exists_edit_iff.mp ⟨m₁, he⟩ i j x rfl
      · exact (ih (hm.edit he)).mp ⟨m', hes⟩ i j x hmem
    · intro h
      obtain ⟨m₁, he⟩ := hm.exists_edit_iff.mpr fun i j x hx => h i j x (hx ▸ List.mem_cons_self)
      obtain ⟨m', hes⟩ := (ih (hm.edit he)).mpr fun i j x hx => h i j x (List.mem_cons_of_mem e hx)
      exact ⟨m', by rw [he]; exact hes⟩

end Run

/-! ### What an index reaches -/

/-- **What an index reaches** in a matrix. Inside there is one cell for each row and column, and a
written cell is another one than all others. Outside, an index is refused behind the last row; with a
column that is too large it is refused if its place is behind the last row, and reaches a cell of a
later row otherwise. -/
structure Addressed (rows cols : ℕ) (m : Matrix K) : Prop extends Shaped rows cols m where
  length_eq : m.cells.length = rows * cols
  get_inside : ∀ i < rows, ∀ j < cols, ∃ x, m.get i j = .ok x
  set_inside : ∀ i < rows, ∀ j < cols, ∀ x, ∃ m', m.set i j x = .ok m' ∧ m'.get i j = .ok x ∧
    ∀ k < rows, ∀ l < cols, (k, l) ≠ (i, j) → m'.get k l = m.get k l
  refuses_row : ∀ i j, rows ≤ i →
    m.get i j = .error .outOfRange ∧ ∀ x, m.set i j x = .error .outOfRange
  refuses_place : ∀ i j, rows * cols ≤ i * cols + j →
    m.get i j = .error .outOfRange ∧ ∀ x, m.set i j x = .error .outOfRange
  wraps : ∀ i j, cols ≤ j → i * cols + j < rows * cols →
    i < i + j / cols ∧ i + j / cols < rows ∧ j % cols < cols ∧
      m.get i j = m.get (i + j / cols) (j % cols) ∧
      ∀ x, m.set i j x = m.set (i + j / cols) (j % cols) x

omit [Number K] in
theorem Shaped.addressed {rows cols : ℕ} {m : Matrix K} (h : m.Shaped rows cols) :
    m.Addressed rows cols := by
  have hshaped := h
  obtain ⟨rfl, rfl⟩ := h
  have hrefuses : ∀ i j, m.rows * m.cols ≤ i * m.cols + j →
      m.get i j = .error .outOfRange ∧ ∀ x, m.set i j x = .error .outOfRange :=
    fun i j h => ⟨get_eq_error h, set_eq_error h⟩
  refine ⟨hshaped, m.size_eq, fun i hi j hj => exists_get (place_lt hi hj), fun i hi j hj x => ?_,
    fun i j hi => hrefuses i j (le_place hi), hrefuses, fun i j hj hlt => ?_⟩
  · obtain ⟨m', h⟩ := exists_set (place_lt hi hj) x
    obtain ⟨-, hget, hother⟩ := get_of_set_eq_ok h
    refine ⟨m', h, hget, fun k _ l hl hne => hother k l fun hplace => hne ?_⟩
    obtain ⟨rfl, rfl⟩ := place_inj hj hl hplace
    rfl
  · have hcols : 0 < m.cols := Nat.pos_of_mul_pos_left (Nat.zero_lt_of_lt hlt)
    have hlater : 0 < j / m.cols := Nat.div_pos hj hcols
    have hplace := place_wrap m.cols i j
    have hrow : i + j / m.cols < m.rows := lt_of_place_lt (hplace ▸ hlt)
    exact ⟨by omega, hrow, Nat.mod_lt j hcols, m.get_congr hplace.symm, m.set_congr hplace.symm⟩

/-- **Cells are independent, and an index is checked by its place.** However a matrix was made and
changed, it has a cell for each of the rows and columns that it was made with. -/
theorem edits_addressed {rows cols : ℕ} {m₀ : Matrix K} (h₀ : Built rows cols m₀)
    (es : List (Edit K)) :
    ((∃ m, m₀.edits es = .ok m) ↔ ∀ i j x, .set i j x ∈ es → i * cols + j < rows * cols) ∧
      ∀ m, m₀.edits es = .ok m → m.Addressed rows cols :=
  ⟨h₀.shaped.exists_edits_iff, fun _ h => (h₀.shaped.edits h).addressed⟩

/-- A square of four cells, of which one is written before the rows are normalized. -/
theorem edits_addressed_square :
    let m₀ : Matrix ℚ := ⟨2, 2, [1, 2, 3, 4], rfl⟩
    Built 2 2 m₀ ∧ ∃ m, m₀.edits [.set 1 0 9, .normalizeRows] = .ok m ∧ m.Addressed 2 2 := by
  intro m₀
  have h₀ : Built 2 2 m₀ := .ofRows [⟨[1, 2]⟩, ⟨[3, 4]⟩] (by decide) rfl
  obtain ⟨hiff, haddressed⟩ := edits_addressed h₀ [.set 1 0 9, .normalizeRows]
  obtain ⟨m, hm⟩ := hiff.mpr fun i j x hx => by
    cases (List.mem_cons.mp hx).resolve_right (by simp)
    decide
  exact ⟨h₀, m, hm, haddressed m hm⟩

/-- **A column that is too large reaches the next row**, which is read, and changed by a write. -/
theorem reaches_next_row :
    let m : Matrix ℚ := ⟨2, 2, [1, 2, 3, 4], rfl⟩
    Built 2 2 m ∧ m.get 0 2 = .ok 3 ∧ m.get 1 0 = .ok 3 ∧
      ∃ m', m.set 0 2 9 = .ok m' ∧ m'.get 1 0 = .ok 9 :=
  ⟨.ofRows [⟨[1, 2]⟩, ⟨[3, 4]⟩] (by decide) rfl, rfl, rfl, _, rfl, rfl⟩

end Matrix

end Reputation
