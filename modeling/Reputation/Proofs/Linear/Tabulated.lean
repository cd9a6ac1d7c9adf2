import Mathlib.Data.Nat.Notation
import Reputation.Linear.Matrix

/-! # Vectors and matrices as tables

A vector or a matrix is usually made over a list of indices: the peers of a context, or the numbers
below a size. `Vec.tabulate is f` is the vector of the values of `f`, and `Matrix.Tabulates` says
that a matrix has the values of a function of two indices as its cells. Each operation on such tables
is an operation on the functions:

* `Vec.normalize_tabulate`, `Vec.combine_tabulate`, `Vec.distance_tabulate` for vectors;
* `Matrix.ofRows_tabulate`, `Matrix.Tabulates.normalizeRows` and
  `Matrix.Tabulates.transposeMultiply` for matrices.

The rows of every matrix are tables over the numbers below its count of columns
(`Matrix.toRows_eq_map`), and every square matrix is a table over the numbers below its size
(`Matrix.tabulates_range`). -/

namespace Reputation

open Number

variable {ι K : Type}

/-! ### Vectors -/

namespace Vec

/-- The vector of the values of `f` at some indices. -/
def tabulate (is : List ι) (f : ι → K) : Vec K := ⟨is.map f⟩

@[simp] theorem entries_tabulate (is : List ι) (f : ι → K) : (tabulate is f).entries = is.map f :=
  rfl

@[simp] theorem size_tabulate (is : List ι) (f : ι → K) : (tabulate is f).size = is.length :=
  List.length_map f

theorem tabulate_congr {is : List ι} {f g : ι → K} (h : ∀ i ∈ is, f i = g i) :
    tabulate is f = tabulate is g := by
  unfold tabulate; rw [List.map_congr_left h]

theorem combine_tabulate (op : K → K → K) (is : List ι) (f g : ι → K) :
    combine op (tabulate is f) (tabulate is g) = .ok (tabulate is fun i => op (f i) (g i)) := by
  unfold combine
  rw [if_pos (by simp)]
  simp [tabulate, List.zipWith_map, List.zipWith_self]

variable [Number K]

theorem tabulate_range (v : Vec K) :
    v = tabulate (List.range v.size) fun i => v.entries.getD i zero := by
  ext1
  refine List.ext_getElem (by simp [size]) fun i h h' => ?_
  simp [List.getElem?_eq_getElem h]

theorem scale_tabulate (is : List ι) (f : ι → K) (c : K) :
    (tabulate is f).scale c = tabulate is fun i => f i * c := by
  simp [scale, tabulate, Function.comp_def]

/-- The sum of the absolute differences of two functions. -/
def spread (is : List ι) (f g : ι → K) : K :=
  Number.sum (is.map fun i => Number.abs (f i - g i))

theorem distance_tabulate (is : List ι) (f g : ι → K) :
    (tabulate is f).distance (tabulate is g) = .ok (spread is f g) := by
  unfold distance
  rw [combine_tabulate]
  rfl

/-- The values of `f` scaled to absolute sum one. -/
def scaled (is : List ι) (f : ι → K) (i : ι) : K :=
  let total := Number.sum (is.map fun i => Number.abs (f i))
  if lt zero total then f i / total else f i

theorem normalize_tabulate (is : List ι) (f : ι → K) :
    (tabulate is f).normalize = tabulate is (scaled is f) := by
  unfold normalize absSum tabulate scaled
  simp only [List.map_map, Function.comp_def]
  split <;> simp

end Vec

/-! ### Rows of a matrix -/

namespace Matrix

theorem pieces_flatten {k : ℕ} {xss : List (List K)} (h : ∀ xs ∈ xss, xs.length = k) :
    pieces k xss.length xss.flatten = xss := by
  induction xss with
  | nil => rfl
  | cons xs xss ih =>
    have hx : xs.length = k := h xs List.mem_cons_self
    simp only [List.length_cons, pieces, List.flatten_cons]
    rw [List.take_left' hx, List.drop_left' hx, ih fun ys hy => h ys (List.mem_cons_of_mem _ hy)]

theorem length_pieces (k n : ℕ) (xs : List K) : (pieces k n xs).length = n := by
  induction n generalizing xs with
  | zero => rfl
  | succ n ih => simp [pieces, ih]

theorem length_of_mem_pieces {k n : ℕ} {xs : List K} (h : xs.length = n * k) :
    ∀ ys ∈ pieces k n xs, ys.length = k := by
  induction n generalizing xs with
  | zero => simp [pieces]
  | succ n ih =>
    have h' : xs.length = n * k + k := by rw [h, Nat.succ_mul]
    intro ys hy
    rcases List.mem_cons.mp hy with rfl | hy
    · simp; omega
    · exact ih (by simp; omega) ys hy

/-- The `i`-th piece starts at place `i * k`. -/
theorem pieces_eq_map (k n : ℕ) (xs : List K) :
    pieces k n xs = (List.range n).map fun i => (xs.drop (i * k)).take k := by
  induction n generalizing xs with
  | zero => rfl
  | succ n ih =>
    rw [List.range_succ_eq_map, pieces, ih]
    simp [Function.comp_def, Nat.succ_mul, Nat.add_comm]

theorem flatten_pieces {k n : ℕ} {xs : List K} (h : xs.length = n * k) :
    (pieces k n xs).flatten = xs := by
  induction n generalizing xs with
  | zero =>
    rw [Nat.zero_mul, List.length_eq_zero_iff] at h
    simp [pieces, h]
  | succ n ih =>
    rw [Nat.succ_mul] at h
    rw [pieces, List.flatten_cons, ih (by simp; omega), List.take_append_drop]

theorem toRows_ofVecs {k : ℕ} {vs : List (Vec K)} (h : ∀ v ∈ vs, v.size = k) :
    (ofVecs k vs h).toRows = vs := by
  have hp : pieces k (vs.map Vec.entries).length (vs.map Vec.entries).flatten =
      vs.map Vec.entries := by
    refine pieces_flatten fun xs hx => ?_
    obtain ⟨v, hv, rfl⟩ := List.mem_map.mp hx
    exact h v hv
  simp only [List.length_map] at hp
  simp [toRows, ofVecs, hp, Function.comp_def]

theorem length_toRows (m : Matrix K) : m.toRows.length = m.rows := by
  simp [toRows, length_pieces]

theorem size_of_mem_toRows {m : Matrix K} {r : Vec K} (h : r ∈ m.toRows) : r.size = m.cols := by
  obtain ⟨xs, hx, rfl⟩ := List.mem_map.mp h
  exact length_of_mem_pieces m.size_eq xs hx

theorem flatten_toRows (m : Matrix K) : (m.toRows.map Vec.entries).flatten = m.cells := by
  have h := flatten_pieces m.size_eq
  simpa [toRows, Function.comp_def] using h

theorem toRows_mapRows (m : Matrix K) (f : Vec K → Vec K) (hf : ∀ v, (f v).size = v.size) :
    (m.mapRows f hf).toRows = m.toRows.map f := by
  have hs : ∀ xs ∈ m.toRows.map fun v => (f v).entries, xs.length = m.cols := by
    intro xs hx
    obtain ⟨v, hv, rfl⟩ := List.mem_map.mp hx
    exact (hf v).trans (size_of_mem_toRows hv)
  have hp := pieces_flatten hs
  rw [List.length_map, length_toRows] at hp
  change (pieces m.cols m.rows (m.toRows.map fun v => (f v).entries).flatten).map Vec.mk = _
  rw [hp, List.map_map]; rfl

/-- The cells of a matrix, read off its rows. -/
theorem get_of_toRows_eq {κ : Type} {m : Matrix K} {is : List ι} {js : List κ} {M : ι → κ → K}
    (h : m.toRows = is.map fun i => Vec.tabulate js (M i)) {i j : ℕ} {p : ι} {q : κ}
    (hp : is[i]? = some p) (hq : js[j]? = some q) : m.get i j = .ok (M p q) := by
  have hrow : m.toRows[i]? = some (Vec.tabulate js (M p)) := by
    rw [h, List.getElem?_map, hp]
    rfl
  obtain ⟨hi, -⟩ := List.getElem?_eq_some_iff.mp hrow
  obtain ⟨hj, -⟩ := List.getElem?_eq_some_iff.mp hq
  have hcols : js.length = m.cols := by
    have hsize := size_of_mem_toRows (List.mem_of_getElem? hrow)
    rwa [Vec.size_tabulate] at hsize
  have he : (m.cells.drop (i * m.cols)).take m.cols = js.map (M p) := by
    rw [toRows, pieces_eq_map, List.map_map, List.getElem?_map, List.getElem?_range (by
      rwa [length_toRows] at hi), Option.map_some, Option.some.injEq] at hrow
    exact congrArg Vec.entries hrow
  have hc : m.cells[i * m.cols + j]? = some (M p q) := by
    rw [← List.getElem?_drop, ← List.getElem?_take_of_lt (hcols ▸ hj), he, List.getElem?_map, hq]
    rfl
  unfold get
  rw [hc]

/-- **The rows of a matrix** as a table of its cells. -/
theorem toRows_eq_map [Number K] (m : Matrix K) :
    m.toRows = (List.range m.rows).map fun i =>
      Vec.tabulate (List.range m.cols) fun j => m.cells.getD (i * m.cols + j) zero := by
  rw [toRows, pieces_eq_map, List.map_map]
  refine List.map_congr_left fun i hi => ?_
  have hs := m.size_eq
  have hi' : i + 1 ≤ m.rows := List.mem_range.mp hi
  have hm := Nat.mul_le_mul_right m.cols hi'
  rw [Nat.succ_mul] at hm
  simp only [Function.comp_def, Vec.tabulate, Vec.mk.injEq]
  refine List.ext_getElem (by simp; omega) fun j hj hj' => ?_
  simp only [List.length_take, List.length_drop] at hj
  simp [List.getElem?_eq_getElem (show i * m.cols + j < m.cells.length by omega)]

theorem firstRagged?_eq_none {k i : ℕ} {vs : List (Vec K)} (h : ∀ v ∈ vs, v.size = k) :
    firstRagged? k i vs = none := by
  induction vs generalizing i with
  | nil => rfl
  | cons v vs ih =>
    unfold firstRagged?
    rw [if_pos (h v List.mem_cons_self)]
    exact ih fun w hw => h w (List.mem_cons_of_mem _ hw)

theorem ofRows_eq_ok {k : ℕ} {vs : List (Vec K)} (h : ∀ v ∈ vs, v.size = k)
    (hk : (vs.head?.map Vec.size).getD 0 = k) : ofRows vs = .ok (ofVecs k vs h) := by
  subst hk
  unfold ofRows
  simp only
  split
  · rfl
  · next hr => rw [firstRagged?_eq_none h] at hr; cases hr

/-! ### Tables of two indices -/

/-- **The matrix of the values of `M`**, with a row and a column for each index. -/
structure Tabulates (m : Matrix K) (is : List ι) (M : ι → ι → K) : Prop where
  rows_eq : m.rows = is.length
  cols_eq : m.cols = is.length
  toRows_eq : m.toRows = is.map fun i => Vec.tabulate is (M i)

theorem ofRows_tabulate (is : List ι) (M : ι → ι → K) :
    ∃ m, ofRows (is.map fun i => Vec.tabulate is (M i)) = .ok m ∧ m.Tabulates is M := by
  have h : ∀ v ∈ is.map fun i => Vec.tabulate is (M i), v.size = is.length := by simp
  refine ⟨_, ofRows_eq_ok h ?_, by simp [ofVecs], rfl, toRows_ofVecs h⟩
  cases is <;> simp

theorem Tabulates.congr {m : Matrix K} {is : List ι} {M N : ι → ι → K} (h : m.Tabulates is M)
    (hMN : ∀ i ∈ is, ∀ j ∈ is, M i j = N i j) : m.Tabulates is N := by
  refine ⟨h.rows_eq, h.cols_eq, h.toRows_eq.trans (List.map_congr_left fun i hi => ?_)⟩
  exact Vec.tabulate_congr (hMN i hi)

theorem Tabulates.get_eq {m : Matrix K} {is : List ι} {M : ι → ι → K} (h : m.Tabulates is M)
    {i j : ℕ} {p q : ι} (hp : is[i]? = some p) (hq : is[j]? = some q) :
    m.get i j = .ok (M p q) :=
  get_of_toRows_eq h.toRows_eq hp hq

variable [Number K]

theorem tabulates_range (m : Matrix K) (h : m.rows = m.cols) :
    m.Tabulates (List.range m.rows) fun i j => m.cells.getD (i * m.cols + j) zero := by
  refine ⟨by simp, by simp [h], ?_⟩
  rw [m.toRows_eq_map, h]

theorem Tabulates.normalizeRows {m : Matrix K} {is : List ι} {M : ι → ι → K}
    (h : m.Tabulates is M) : m.normalizeRows.Tabulates is fun i => Vec.scaled is (M i) := by
  refine ⟨h.rows_eq, h.cols_eq, ?_⟩
  rw [Matrix.normalizeRows, toRows_mapRows, h.toRows_eq, List.map_map]
  exact List.map_congr_left fun i _ => Vec.normalize_tabulate is (M i)

/-! ### The transposed product -/

/-- What flows into an index when each index of weight `t i` passes on its row of `M`. -/
def inflow (is : List ι) (t : ι → K) (M : ι → ι → K) (j : ι) : K :=
  is.foldl (fun s i => if eq (t i) zero then s else s + M i j * t i) zero

theorem addWeighted_map (js : List ι) (f r : ι → K) (w : K) :
    addWeighted (js.map f) w (js.map r) =
      js.map fun j => if eq w zero then f j else f j + r j * w := by
  unfold addWeighted
  split
  · simp
  · simp [List.zipWith_map, List.zipWith_self]

theorem foldl_addWeighted (js is : List ι) (t f : ι → K) (M : ι → ι → K) :
    (List.zip (is.map t) (is.map fun i => Vec.tabulate js (M i))).foldl
        (fun s (w, r) => addWeighted s w r.entries) (js.map f) =
      js.map fun j => is.foldl (fun s i => if eq (t i) zero then s else s + M i j * t i) (f j) := by
  induction is generalizing f with
  | nil => simp
  | cons i is ih =>
    simp only [List.map_cons, List.zip_cons_cons, List.foldl_cons, Vec.entries_tabulate]
    rw [addWeighted_map, ih]

theorem Tabulates.transposeMultiply {m : Matrix K} {is : List ι} {M : ι → ι → K}
    (h : m.Tabulates is M) (t : ι → K) :
    m.transposeMultiply (Vec.tabulate is t) = .ok (Vec.tabulate is (inflow is t M)) := by
  have hz : List.replicate m.cols (zero : K) = is.map fun _ => zero := by
    rw [h.cols_eq, List.map_const']
  unfold Matrix.transposeMultiply
  rw [if_pos (by rw [h.rows_eq, Vec.size_tabulate]), h.toRows_eq, hz, Vec.entries_tabulate,
    foldl_addWeighted]
  rfl

end Matrix

end Reputation
