import Mathlib.Algebra.Order.Ring.Rat
import Mathlib.Algebra.Order.Ring.Abs
import Mathlib.Algebra.BigOperators.Group.List.Basic
import Reputation.Number.Basic

/-! # Exact arithmetic

Over the rational numbers the operations of `Number` are the usual ones: these lemmas turn each of
them into the notation of ordered fields, in which the exact claims are proved. What holds with
rounding as well rests on the `Signs` of numbers and on the order of the positive ones (`Ordered`). -/

namespace Reputation.Number

@[simp] theorem zero_rat : (zero : ℚ) = 0 := rfl

@[simp] theorem one_rat : (one : ℚ) = 1 := rfl

@[simp] theorem ofNat_rat (n : ℕ) : (ofNat n : ℚ) = n := rfl

@[simp] theorem lt_rat (x y : ℚ) : lt x y = decide (x < y) := rfl

@[simp] theorem le_rat (x y : ℚ) : le x y = decide (x ≤ y) := rfl

@[simp] theorem eq_rat (x y : ℚ) : eq x y = decide (x = y) := rfl

@[simp] theorem abs_rat (x : ℚ) : abs x = |x| := by
  change (if x < 0 then -x else x) = |x|
  split_ifs with h
  · exact (abs_of_neg h).symm
  · exact (abs_of_nonneg (not_lt.mp h)).symm

@[simp] theorem sum_rat (xs : List ℚ) : sum xs = xs.sum := by
  rw [List.sum_eq_foldl]; rfl

@[simp] theorem raise_rat (floor x : ℚ) : raise floor x = max floor x := by
  unfold raise
  rw [le_rat]
  by_cases h : floor ≤ x
  · rw [max_eq_right h]; simp [h]
  · rw [max_eq_left (not_le.mp h).le]; simp [h]

/-! ### Signs -/

/-- **The signs of sums and quotients.** Infinity may be among the positive numbers, but not-a-number
is not, and no sum of positive numbers is rounded to zero. -/
structure Signs (K : Type) [Number K] : Prop where
  zero_not_pos : lt (zero : K) zero = false
  start_pos : ∀ x : K, lt zero x = true → lt zero (emptySum + x) = true
  add_pos : ∀ x y : K, lt zero x = true → lt zero y = true → lt zero (x + y) = true
  not_le_zero : ∀ x : K, lt zero x = true → le x zero = false
  zero_div_not_pos : ∀ x : K, lt zero x = true → lt zero (zero / x) = false

theorem signs_rat : Signs ℚ where
  zero_not_pos := by simp
  start_pos x h := by
    have hx : (0 : ℚ) < x := by simpa using h
    have he : (emptySum : ℚ) + x = x := zero_add x
    simpa [he] using hx
  add_pos x y hx hy := by
    have hx : (0 : ℚ) < x := by simpa using hx
    have hy : (0 : ℚ) < y := by simpa using hy
    have hxy : (0 : ℚ) < x + y := lt_trans hx (lt_add_of_pos_right x hy)
    simpa using hxy
  not_le_zero x h := by simpa using h
  zero_div_not_pos x _ := by simp

/-- A sum of positive numbers is positive. -/
theorem Signs.sum_pos {K : Type} [Number K] (hK : Signs K) {xs : List K} (hne : xs ≠ [])
    (h : ∀ x ∈ xs, lt zero x = true) : lt zero (sum xs) = true := by
  have hfold : ∀ (s : K) (ys : List K), lt zero s = true → (∀ y ∈ ys, lt zero y = true) →
      lt zero (ys.foldl (· + ·) s) = true := by
    intro s ys
    induction ys generalizing s with
    | nil => exact fun hs _ => hs
    | cons y ys ih =>
      intro hs hy
      have hsy : lt zero (s + y) = true := hK.add_pos s y hs (hy y List.mem_cons_self)
      exact ih (s + y) hsy fun z hz => hy z (List.mem_cons_of_mem y hz)
  cases xs with
  | nil => exact absurd rfl hne
  | cons x xs =>
    have hx : lt zero (emptySum + x) = true := hK.start_pos x (h x List.mem_cons_self)
    exact hfold (emptySum + x) xs hx fun y hy => h y (List.mem_cons_of_mem x hy)

/-! ### Order -/

/-- **An order of the positive numbers**: any two of them are comparable. -/
structure Ordered (K : Type) [Number K] : Prop where
  total : ∀ x y : K, lt zero x → lt zero y → le x y ∨ le y x
  trans : ∀ x y z : K, lt zero x → lt zero y → lt zero z → le x y → le y z → le x z

theorem ordered_rat : Ordered ℚ where
  total x y _ _ := by
    simp only [le_rat, decide_eq_true_eq]
    exact le_total x y
  trans x y z _ _ _ := by
    simp only [le_rat, decide_eq_true_eq]
    exact le_trans

end Reputation.Number
