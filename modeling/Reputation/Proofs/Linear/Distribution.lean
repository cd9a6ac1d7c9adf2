import Mathlib.Algebra.BigOperators.Field
import Mathlib.Algebra.Order.BigOperators.Group.List
import Mathlib.Algebra.Order.BigOperators.Group.Multiset
import Mathlib.Algebra.Order.Field.Basic
import Mathlib.Tactic.Ring
import Reputation.Proofs.Linear.Tabulated
import Reputation.Proofs.Number.Exact

/-! # Distributions

A distribution is a vector of non-negative entries whose sum is one, and a matrix is row-stochastic
if each of its rows is one. Scaling makes a distribution of every non-negative vector with mass
(`Vec.isDistribution_scaled`) and leaves a distribution alone (`Vec.IsDistribution.normalize_eq`).

The product of the transpose of a row-stochastic matrix keeps the sum of a vector (`sum_inflow`) and
brings no two vectors further apart (`spread_inflow_le`). -/

namespace Reputation

open Number

variable {ι : Type}

/-! ### Sums over a list -/

theorem sum_map_abs {is : List ι} {f : ι → ℚ} (h : ∀ i ∈ is, 0 ≤ f i) :
    (is.map fun i => |f i|).sum = (is.map f).sum := by
  rw [List.map_congr_left fun i hi => abs_of_nonneg (h i hi)]

theorem sum_map_nonneg {is : List ι} {f : ι → ℚ} (h : ∀ i ∈ is, 0 ≤ f i) :
    0 ≤ (is.map f).sum :=
  List.sum_nonneg (by simpa using h)

theorem le_sum_map {is : List ι} {f : ι → ℚ} (h : ∀ i ∈ is, 0 ≤ f i) {i : ι} (hi : i ∈ is) :
    f i ≤ (is.map f).sum :=
  List.single_le_sum (by simpa using h) _ (List.mem_map_of_mem hi)

theorem sum_map_comm {κ : Type} (is : List ι) (js : List κ) (f : ι → κ → ℚ) :
    (is.map fun i => (js.map fun j => f i j).sum).sum =
      (js.map fun j => (is.map fun i => f i j).sum).sum := by
  simpa using Multiset.sum_map_sum_map (is : Multiset ι) (js : Multiset κ) (f := f)

theorem sum_map_sub (is : List ι) (f g : ι → ℚ) :
    (is.map fun i => f i - g i).sum = (is.map f).sum - (is.map g).sum := by
  simpa using Multiset.sum_map_sub (m := (is : Multiset ι)) (f := f) (g := g)

theorem abs_sum_map_le (is : List ι) (f : ι → ℚ) :
    |(is.map f).sum| ≤ (is.map fun i => |f i|).sum := by
  simpa [Function.comp_def] using Multiset.abs_sum_le_sum_abs (s := (is.map f : Multiset ℚ))

theorem sum_map_ite (P : ι → Bool) (x : ℚ) (is : List ι) :
    (is.map fun i => if P i then x else 0).sum = is.countP P * x := by
  induction is with
  | nil => simp
  | cons i is ih =>
    rw [List.map_cons, List.sum_cons, ih, List.countP_cons]
    split_ifs <;> push_cast <;> ring

/-! ### Distributions -/

namespace Vec

/-- **A distribution**: entries of at least zero that sum up to one. -/
structure IsDistribution (v : Vec ℚ) : Prop where
  nonneg : ∀ x ∈ v.entries, 0 ≤ x
  sum_eq : v.sum = 1

theorem isDistribution_tabulate {is : List ι} {f : ι → ℚ} :
    (tabulate is f).IsDistribution ↔ (∀ i ∈ is, 0 ≤ f i) ∧ (is.map f).sum = 1 := by
  constructor
  · intro h
    exact ⟨by simpa using h.nonneg, by simpa [sum] using h.sum_eq⟩
  · rintro ⟨h1, h2⟩
    exact ⟨by simpa using h1, by simpa [sum] using h2⟩

theorem scaled_eq_div {is : List ι} {f : ι → ℚ} (h : ∀ i ∈ is, 0 ≤ f i) {i : ι} (hi : i ∈ is) :
    scaled is f i = f i / (is.map f).sum := by
  unfold scaled
  simp only [abs_rat, sum_rat, lt_rat, zero_rat, decide_eq_true_eq]
  rw [sum_map_abs h]
  split_ifs with hs
  · rfl
  · have h0 : f i ≤ 0 := (le_sum_map h hi).trans (not_lt.mp hs)
    rw [le_antisymm h0 (h i hi), zero_div]

theorem scaled_eq_zero (is : List ι) {f : ι → ℚ} {i : ι} (h : f i = 0) : scaled is f i = 0 := by
  unfold scaled
  simp only [h, zero_div, ite_self]

theorem scaled_nonneg {is : List ι} {f : ι → ℚ} (h : ∀ i ∈ is, 0 ≤ f i) :
    ∀ i ∈ is, 0 ≤ scaled is f i := by
  intro i hi
  rw [scaled_eq_div h hi]
  exact div_nonneg (h i hi) (sum_map_nonneg h)

theorem isDistribution_scaled {is : List ι} {f : ι → ℚ} (h : ∀ i ∈ is, 0 ≤ f i)
    (hs : 0 < (is.map f).sum) : (tabulate is (scaled is f)).IsDistribution := by
  refine isDistribution_tabulate.mpr ⟨scaled_nonneg h, ?_⟩
  rw [List.map_congr_left fun i hi => scaled_eq_div h hi]
  simp only [div_eq_mul_inv]
  rw [List.sum_map_mul_right, mul_inv_cancel₀ hs.ne']

theorem IsDistribution.normalize_eq {v : Vec ℚ} (h : v.IsDistribution) : v.normalize = v := by
  have hs : v.absSum = 1 := by
    rw [← h.sum_eq, absSum, sum, List.map_congr_left (g := id) fun x hx => ?_, List.map_id]
    rw [abs_rat, abs_of_nonneg (h.nonneg x hx), id]
  unfold normalize
  simp [hs]

end Vec

/-! ### Row-stochastic matrices -/

namespace Matrix

/-- Every row is a distribution. -/
def RowStochastic (m : Matrix ℚ) : Prop := ∀ r ∈ m.toRows, r.IsDistribution

theorem RowStochastic.sum_cells {m : Matrix ℚ} (h : m.RowStochastic) :
    Number.sum m.cells = m.rows := by
  have hs : m.toRows.map (fun r => r.entries.sum) = m.toRows.map fun _ => 1 :=
    List.map_congr_left fun r hr => by simpa [Vec.sum] using (h r hr).sum_eq
  rw [sum_rat, ← m.flatten_toRows, List.sum_flatten, List.map_map, Function.comp_def, hs]
  simp [m.length_toRows]

theorem Tabulates.rowStochastic_iff {m : Matrix ℚ} {is : List ι} {M : ι → ι → ℚ}
    (h : m.Tabulates is M) :
    m.RowStochastic ↔ ∀ i ∈ is, (Vec.tabulate is (M i)).IsDistribution := by
  unfold RowStochastic
  rw [h.toRows_eq]
  simp

theorem inflow_eq (is : List ι) (t : ι → ℚ) (M : ι → ι → ℚ) (j : ι) :
    inflow is t M j = (is.map fun i => t i * M i j).sum := by
  have hf : ∀ s i, (if Number.eq (t i) zero then s else s + M i j * t i) = s + t i * M i j := by
    intro s i
    simp only [eq_rat, zero_rat, decide_eq_true_eq]
    split_ifs with h0
    · rw [h0]; ring
    · ring
  unfold inflow
  simp only [hf]
  rw [List.sum_eq_foldl, List.foldl_map]
  rfl

theorem inflow_nonneg {is : List ι} {t : ι → ℚ} {M : ι → ι → ℚ} (ht : ∀ i ∈ is, 0 ≤ t i) {j : ι}
    (hM : ∀ i ∈ is, 0 ≤ M i j) : 0 ≤ inflow is t M j := by
  rw [inflow_eq]
  exact sum_map_nonneg fun i hi => mul_nonneg (ht i hi) (hM i hi)

/-- Nothing flows into an index that gets nothing from where there is something. -/
theorem inflow_eq_zero {is : List ι} {t : ι → ℚ} {M : ι → ι → ℚ} {j : ι}
    (h : ∀ i ∈ is, t i = 0 ∨ M i j = 0) : inflow is t M j = 0 := by
  rw [inflow_eq]
  refine List.sum_eq_zero fun x hx => ?_
  obtain ⟨i, hi, rfl⟩ := List.mem_map.mp hx
  exact mul_eq_zero.mpr (h i hi)

section Stochastic
variable {is : List ι} {M : ι → ι → ℚ} (hM : ∀ i ∈ is, (Vec.tabulate is (M i)).IsDistribution)
include hM

/-- **The transposed product keeps the sum.** -/
theorem sum_inflow (t : ι → ℚ) : (is.map (inflow is t M)).sum = (is.map t).sum := by
  simp only [funext (inflow_eq is t M)]
  rw [sum_map_comm is is fun j i => t i * M i j]
  refine congrArg List.sum (List.map_congr_left fun i hi => ?_)
  rw [List.sum_map_mul_left, (Vec.isDistribution_tabulate.mp (hM i hi)).2, mul_one]

/-- **The transposed product brings no two vectors further apart.** -/
theorem spread_inflow_le (s t : ι → ℚ) :
    Vec.spread is (inflow is s M) (inflow is t M) ≤ Vec.spread is s t := by
  have hd : ∀ j, |inflow is s M j - inflow is t M j| ≤ inflow is (fun i => |s i - t i|)
      (fun i j => |M i j|) j := by
    intro j
    simp only [inflow_eq]
    rw [← sum_map_sub]
    refine (abs_sum_map_le _ _).trans (le_of_eq (congrArg List.sum ?_))
    exact List.map_congr_left fun i _ => by rw [← sub_mul, abs_mul]
  have hc : (is.map (inflow is (fun i => |s i - t i|) fun i j => |M i j|)).sum =
      (is.map fun i => |s i - t i|).sum := by
    refine sum_inflow (fun i hi => ?_) _
    have hi' := Vec.isDistribution_tabulate.mp (hM i hi)
    refine Vec.isDistribution_tabulate.mpr ⟨fun _ _ => abs_nonneg _, ?_⟩
    rw [sum_map_abs hi'.1, hi'.2]
  simp only [Vec.spread, abs_rat, sum_rat]
  rw [← hc]
  exact List.sum_le_sum fun j _ => hd j

end Stochastic

end Matrix

end Reputation
