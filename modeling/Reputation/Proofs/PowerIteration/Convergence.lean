import Mathlib.Tactic.Linarith
import Reputation.Proofs.Linear.Distribution
import Reputation.Proofs.PowerIteration.Orbit

/-! # Convergence of the power iteration

Over a row-stochastic matrix the orbit of a distribution consists of distributions, and each change
is at most `1 - alpha` times the one before. The first change is at most `2 * (1 - alpha)`, so a
limit `N` with `2 * (1 - alpha) ^ N < epsilon` is enough for the iteration to settle. -/

namespace Reputation

open Number

namespace PowerIteration

variable {ι : Type} {is : List ι} {M : ι → ι → ℚ} {q : ι → ℚ} {alpha : ℚ}

/-- Two distributions are at most two apart. -/
theorem spread_le_two {s t : ι → ℚ} (hs : (Vec.tabulate is s).IsDistribution)
    (ht : (Vec.tabulate is t).IsDistribution) : Vec.spread is s t ≤ 2 := by
  rw [Vec.isDistribution_tabulate] at hs ht
  simp only [Vec.spread, abs_rat, sum_rat]
  calc (is.map fun i => |s i - t i|).sum ≤ (is.map fun i => s i + t i).sum :=
        List.sum_le_sum fun i hi => by
          have h := abs_sub (s i) (t i)
          rwa [abs_of_nonneg (hs.1 i hi), abs_of_nonneg (ht.1 i hi)] at h
    _ = 2 := by rw [List.sum_map_add, hs.2, ht.2]; norm_num

theorem spread_of_sub_eq_mul {f g s t : ι → ℚ} {c : ℚ} (hc : 0 ≤ c)
    (h : ∀ i, f i - g i = c * (s i - t i)) : Vec.spread is f g = c * Vec.spread is s t := by
  simp only [Vec.spread, abs_rat, sum_rat, h, abs_mul, abs_of_nonneg hc]
  rw [List.sum_map_mul_left]

/-! ### One step -/

theorem sum_blend (is : List ι) (M : ι → ι → ℚ) (q : ι → ℚ) (alpha : ℚ) (t : ι → ℚ) :
    (is.map (blend is M q alpha t)).sum =
      (is.map (Matrix.inflow is t M)).sum * (1 - alpha) + (is.map q).sum * alpha := by
  rw [← List.sum_map_mul_right, ← List.sum_map_mul_right, ← List.sum_map_add]
  rfl

theorem isDistribution_inflow (hM : ∀ i ∈ is, (Vec.tabulate is (M i)).IsDistribution) {t : ι → ℚ}
    (ht : (Vec.tabulate is t).IsDistribution) :
    (Vec.tabulate is (Matrix.inflow is t M)).IsDistribution := by
  have hs := Matrix.sum_inflow hM t
  simp only [Vec.isDistribution_tabulate] at hM ht ⊢
  exact ⟨fun j hj => Matrix.inflow_nonneg ht.1 fun i hi => (hM i hi).1 j hj, by rw [hs, ht.2]⟩

theorem isDistribution_blend (hM : ∀ i ∈ is, (Vec.tabulate is (M i)).IsDistribution)
    (hq : (Vec.tabulate is q).IsDistribution) (h0 : 0 ≤ alpha) (h1 : alpha ≤ 1) {t : ι → ℚ}
    (ht : (Vec.tabulate is t).IsDistribution) :
    (Vec.tabulate is (blend is M q alpha t)).IsDistribution := by
  have hf := isDistribution_inflow hM ht
  rw [Vec.isDistribution_tabulate] at hf hq ⊢
  constructor
  · intro j hj
    exact add_nonneg (mul_nonneg (hf.1 j hj) (sub_nonneg.mpr h1)) (mul_nonneg (hq.1 j hj) h0)
  · rw [sum_blend, hf.2, hq.2]; ring

/-- **A step is a contraction.** -/
theorem spread_blend_le (hM : ∀ i ∈ is, (Vec.tabulate is (M i)).IsDistribution) (h1 : alpha ≤ 1)
    (s t : ι → ℚ) : Vec.spread is (blend is M q alpha s) (blend is M q alpha t) ≤
      (1 - alpha) * Vec.spread is s t := by
  have hd : ∀ j, blend is M q alpha s j - blend is M q alpha t j =
      (1 - alpha) * (Matrix.inflow is s M j - Matrix.inflow is t M j) := by
    intro j; simp only [blend, one_rat]; ring
  rw [spread_of_sub_eq_mul (sub_nonneg.mpr h1) hd]
  exact mul_le_mul_of_nonneg_left (Matrix.spread_inflow_le hM s t) (sub_nonneg.mpr h1)

/-- A first step from the vector that is blended in. -/
theorem spread_blend_self_le (hM : ∀ i ∈ is, (Vec.tabulate is (M i)).IsDistribution)
    (hq : (Vec.tabulate is q).IsDistribution) (h1 : alpha ≤ 1) :
    Vec.spread is (blend is M q alpha q) q ≤ (1 - alpha) * 2 := by
  have hd : ∀ j, blend is M q alpha q j - q j = (1 - alpha) * (Matrix.inflow is q M j - q j) := by
    intro j; simp only [blend, one_rat]; ring
  rw [spread_of_sub_eq_mul (sub_nonneg.mpr h1) hd]
  exact mul_le_mul_of_nonneg_left (spread_le_two (isDistribution_inflow hM hq) hq)
    (sub_nonneg.mpr h1)

/-! ### The orbit -/

section Orbit
variable {p : PowerIteration ℚ} (hC : p.matrix.RowStochastic) (hp : p.preTrust.IsDistribution)
  (h0 : 0 ≤ p.alpha) (h1 : p.alpha ≤ 1)
include hC hp h0 h1

theorem isDistribution_orbit (k : ℕ) : (p.orbit k).IsDistribution := by
  obtain ⟨M, q, hM, hq⟩ := p.exists_tabulate
  rw [hM.rowStochastic_iff] at hC
  rw [hq] at hp
  rw [orbit_tabulate hM hq]
  induction k with
  | zero => exact hp
  | succ k ih =>
    rw [Function.iterate_succ_apply']
    exact isDistribution_blend hC hp h0 h1 ih

omit hp h0 in
theorem change_succ_le (k : ℕ) : p.change (k + 1) ≤ (1 - p.alpha) * p.change k := by
  obtain ⟨M, q, hM, hq⟩ := p.exists_tabulate
  rw [hM.rowStochastic_iff] at hC
  rw [change_tabulate hM hq, change_tabulate hM hq]
  simp only [Function.iterate_succ_apply']
  exact spread_blend_le hC h1 _ _

omit h0 in
theorem change_zero_le : p.change 0 ≤ (1 - p.alpha) * 2 := by
  obtain ⟨M, q, hM, hq⟩ := p.exists_tabulate
  rw [hM.rowStochastic_iff] at hC
  rw [hq] at hp
  rw [change_tabulate hM hq]
  exact spread_blend_self_le hC hp h1

omit h0 in
/-- The changes shrink geometrically. -/
theorem change_le (k : ℕ) : p.change k ≤ 2 * (1 - p.alpha) ^ (k + 1) := by
  induction k with
  | zero => rw [zero_add, pow_one, mul_comm]; exact change_zero_le hC hp h1
  | succ k ih =>
    calc p.change (k + 1) ≤ (1 - p.alpha) * p.change k := change_succ_le hC h1 k
      _ ≤ (1 - p.alpha) * (2 * (1 - p.alpha) ^ (k + 1)) :=
          mul_le_mul_of_nonneg_left ih (sub_nonneg.mpr h1)
      _ = 2 * (1 - p.alpha) ^ (k + 1 + 1) := by ring

omit h0 in
/-- **A large enough limit is not reached.** -/
theorem exists_outcome_eq (hl : 1 ≤ p.limit) (hN : 2 * (1 - p.alpha) ^ p.limit < p.epsilon) :
    ∃ n ≤ p.limit, p.outcome = (true, n) := by
  have hs : p.Settles (p.limit - 1) := by
    have := change_le hC hp h1 (p.limit - 1)
    rw [Nat.sub_add_cancel hl] at this
    simp only [Settles, lt_rat, decide_eq_true_eq]
    linarith
  rcases p.outcome_cases with ⟨k, hlt, -, -, ho⟩ | ⟨hnone, -⟩
  · exact ⟨k + 1, hlt, ho⟩
  · exact absurd hs (hnone _ (by omega))

end Orbit

/-- **Guaranteed convergence.** Over a row-stochastic matrix every vector that an iteration runs
through is a distribution, and each change is at most `1 - alpha` times the one before. The iteration
ends at one of these vectors: settled after the first step whose change is below `epsilon`, or at its
limit `N` if no step has such a change. It has settled if `2 * (1 - alpha) ^ N < epsilon`. -/
theorem settles_of_rowStochastic {preTrust : Vec ℚ} {matrix : Matrix ℚ} {limit : ℕ}
    {epsilon alpha : ℚ} (square : matrix.rows = matrix.cols) (fits : matrix.rows = preTrust.size)
    (hC : matrix.RowStochastic) (hp : preTrust.IsDistribution) (h0 : 0 ≤ alpha) (h1 : alpha ≤ 1)
    (hl : 1 ≤ limit) :
    ∃ p, start preTrust matrix limit epsilon alpha = .ok p ∧ p.orbit 0 = preTrust ∧
      (∀ k, p.step (p.orbit k) = .ok (p.orbit (k + 1)) ∧
        (p.orbit (k + 1)).distance (p.orbit k) = .ok (p.change k)) ∧
      (∀ k, (p.orbit k).IsDistribution) ∧
      (∀ k, p.change (k + 1) ≤ (1 - alpha) * p.change k) ∧
      ∃ n ≤ limit, ∃ p', p.converge = .ok (p.orbit n, p') ∧ p'.progress.iterations = n ∧
        ((p'.progress = .converged n (p.orbit n) ∧ 1 ≤ n ∧ p.change (n - 1) < epsilon ∧
            ∀ k, k + 1 < n → epsilon ≤ p.change k) ∨
          (p'.progress = .exhausted n (p.orbit n) ∧ n = limit ∧
            ∀ k < limit, epsilon ≤ p.change k)) ∧
        (2 * (1 - alpha) ^ limit < epsilon → p'.progress = .converged n (p.orbit n)) := by
  let p : PowerIteration ℚ := ⟨preTrust, matrix, limit, epsilon, alpha, .notStarted, square, fits⟩
  have hd := isDistribution_orbit (p := p) hC hp h0 h1
  refine ⟨p, start_eq square fits limit epsilon alpha, rfl, fun k => ⟨step_orbit p k,
    distance_orbit p k⟩, hd, change_succ_le (p := p) hC h1, p.outcome.2, p.outcome_le, _,
    (converge_eq p rfl).trans (by rw [(hd _).normalize_eq]), Progress.iterations_ofOutcome _ _,
    ?ends, fun hN => ?_⟩
  case ends =>
    have hlt (k : ℕ) : p.Settles k ↔ p.change k < epsilon := by
      simp only [Settles, lt_rat, decide_eq_true_eq, p]
    rcases p.outcome_cases with ⟨k, -, hs, hfirst, ho⟩ | ⟨hnone, ho⟩
    · rw [ho]
      refine .inl ⟨rfl, Nat.le_add_left 1 k, (hlt k).mp hs, fun j hj => ?_⟩
      exact not_lt.mp (mt (hlt j).mpr (hfirst j (by omega)))
    · rw [ho]
      exact .inr ⟨rfl, rfl, fun k hk => not_lt.mp (mt (hlt k).mpr (hnone k hk))⟩
  obtain ⟨n, -, ho⟩ := exists_outcome_eq (p := p) hC hp h1 hl hN
  rw [ho]; rfl

/-- Two peers who trust each other by halves and quarters settle in three steps. -/
theorem settles_halves_quarters :
    2 * (1 - 1 / 2 : ℚ) ^ 3 < 1 / 2 ∧ ∃ p, start ⟨[1 / 2, 1 / 2]⟩
      ⟨2, 2, [1 / 2, 1 / 2, 1 / 4, 3 / 4], rfl⟩ 3 (1 / 2) (1 / 2 : ℚ) = .ok p ∧
      ∃ n ≤ 3, ∃ p', p.converge = .ok (p.orbit n, p') ∧ p'.progress = .converged n (p.orbit n) ∧
        1 ≤ n ∧ p.change (n - 1) < 1 / 2 := by
  have hp : (⟨[1 / 2, 1 / 2]⟩ : Vec ℚ).IsDistribution := ⟨by norm_num, by norm_num [Vec.sum]⟩
  have hC : (⟨2, 2, [1 / 2, 1 / 2, 1 / 4, 3 / 4], rfl⟩ : Matrix ℚ).RowStochastic := by
    intro r hr
    have hr : r ∈ [⟨[1 / 2, 1 / 2]⟩, (⟨[1 / 4, 3 / 4]⟩ : Vec ℚ)] := hr
    rcases List.mem_pair.mp hr with rfl | rfl
    · exact hp
    · exact ⟨by norm_num, by norm_num [Vec.sum]⟩
  have hN : 2 * (1 - 1 / 2 : ℚ) ^ 3 < 1 / 2 := by norm_num
  obtain ⟨p, hs, -, -, -, -, n, hn, p', hc, -, hends, hq⟩ :=
    @settles_of_rowStochastic _ _ 3 (1 / 2) (1 / 2) rfl rfl hC hp (by norm_num) (by norm_num)
      (by norm_num)
  have hconverged := hq hN
  rcases hends with ⟨-, hone, hlast, -⟩ | ⟨hexhausted, -⟩
  · exact ⟨hN, p, hs, n, hn, p', hc, hconverged, hone, hlast⟩
  · rw [hconverged] at hexhausted
    cases hexhausted

end PowerIteration

end Reputation
