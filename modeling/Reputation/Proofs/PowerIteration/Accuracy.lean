import Mathlib.Algebra.Order.BigOperators.Group.Finset
import Mathlib.Algebra.Order.Field.Basic
import Reputation.Proofs.Linear.Cells
import Reputation.Proofs.PowerIteration.Convergence

/-! # How close a settled iteration is

An iteration settles when its last change is small, which is a statement about two vectors on the way
and not about the equation `t = (1 - alpha) · Cᵗ t + alpha · p` that the trust is to solve. Here the
equation is written out in entries: `PowerIteration.target` is its right side. A step computes it
(`step_eq_target`), and over a row-stochastic matrix it brings two vectors closer by `1 - alpha`
(`gap_target_le`). So the vector at which an iteration settles misses the equation by less than
`epsilon`, and any exact solution by at most `(1 - alpha) / alpha * epsilon`: `settled_accurate`. -/

namespace Reputation

open Number

/-! ### Distances -/

/-- **How far apart** the first `n` values of two functions are. -/
def gap (n : ℕ) (f g : ℕ → ℚ) : ℚ := ∑ i ∈ Finset.range n, |f i - g i|

theorem spread_range (n : ℕ) (f g : ℕ → ℚ) : Vec.spread (List.range n) f g = gap n f g := by
  simp only [Vec.spread, abs_rat, sum_rat]
  rfl

theorem gap_congr {n : ℕ} {f f' g g' : ℕ → ℚ} (hf : ∀ i < n, f i = f' i) (hg : ∀ i < n, g i = g' i) :
    gap n f g = gap n f' g' := by
  refine Finset.sum_congr rfl fun i hi => ?_
  have hi := Finset.mem_range.mp hi
  rw [hf i hi, hg i hi]

theorem gap_nonneg (n : ℕ) (f g : ℕ → ℚ) : 0 ≤ gap n f g :=
  Finset.sum_nonneg fun _ _ => abs_nonneg _

theorem gap_comm (n : ℕ) (f g : ℕ → ℚ) : gap n f g = gap n g f :=
  Finset.sum_congr rfl fun _ _ => abs_sub_comm _ _

theorem gap_triangle (n : ℕ) (f g h : ℕ → ℚ) : gap n f h ≤ gap n f g + gap n g h := by
  unfold gap
  rw [← Finset.sum_add_distrib]
  exact Finset.sum_le_sum fun i _ => abs_sub_le _ _ _

namespace PowerIteration

/-! ### The equation -/

/-- **The right side of the equation** that the trust is to solve, `(1 - alpha) · Cᵗ t + alpha · p`,
at one entry. -/
def target (p : PowerIteration ℚ) (t : ℕ → ℚ) (j : ℕ) : ℚ :=
  (1 - p.alpha) * ∑ i ∈ Finset.range p.preTrust.size, p.matrix.cell i j * t i +
    p.alpha * p.preTrust.entry j

theorem matrix_tabulates (p : PowerIteration ℚ) :
    p.matrix.Tabulates (List.range p.preTrust.size) p.matrix.cell := by
  have hM := Matrix.tabulates_range p.matrix p.square
  rw [p.rows_eq] at hM
  exact hM.congr fun i _ j _ => (p.matrix.cell_eq_getD i j).symm

theorem blend_eq_target (p : PowerIteration ℚ) (t : ℕ → ℚ) :
    blend (List.range p.preTrust.size) p.matrix.cell p.preTrust.entry p.alpha t = p.target t := by
  funext j
  have hsum : Matrix.inflow (List.range p.preTrust.size) t p.matrix.cell j =
      ∑ i ∈ Finset.range p.preTrust.size, p.matrix.cell i j * t i := by
    simp only [Matrix.inflow_eq, mul_comm (t _)]
    rfl
  unfold blend target
  rw [hsum, one_rat]
  ring

/-- **A step computes the right side.** -/
theorem step_eq_target (p : PowerIteration ℚ) {t : Vec ℚ} (ht : t.size = p.preTrust.size) :
    p.step t = .ok (Vec.tabulate (List.range p.preTrust.size) (p.target t.entry)) := by
  conv_lhs => rw [Vec.eq_tabulate_entry ht]
  rw [step_tabulate p.matrix_tabulates (Vec.eq_tabulate_entry rfl), blend_eq_target]

/-- The vectors of an iteration, entry by entry. -/
theorem entry_orbit_succ (p : PowerIteration ℚ) (k : ℕ) {j : ℕ} (hj : j < p.preTrust.size) :
    (p.orbit (k + 1)).entry j = p.target (p.orbit k).entry j := by
  have hstep := p.step_eq_target (p.size_orbit k)
  rw [step_orbit] at hstep
  rw [Except.ok.inj hstep, Vec.entry_tabulate _ hj]

theorem change_eq_gap (p : PowerIteration ℚ) (k : ℕ) :
    p.change k = gap p.preTrust.size (p.orbit (k + 1)).entry (p.orbit k).entry := by
  have hd := p.distance_orbit k
  rw [Vec.eq_tabulate_entry (p.size_orbit (k + 1)), Vec.eq_tabulate_entry (p.size_orbit k),
    Vec.distance_tabulate, spread_range] at hd
  exact (Except.ok.inj hd).symm

section Stochastic
variable {p : PowerIteration ℚ} (hC : p.matrix.RowStochastic) (h1 : p.alpha ≤ 1)
include hC h1

/-- **The right side is a contraction.** -/
theorem gap_target_le (s t : ℕ → ℚ) :
    gap p.preTrust.size (p.target s) (p.target t) ≤ (1 - p.alpha) * gap p.preTrust.size s t := by
  rw [← blend_eq_target, ← blend_eq_target, ← spread_range, ← spread_range]
  exact spread_blend_le (p.matrix_tabulates.rowStochastic_iff.mp hC) h1 s t

/-- After a small change the vector almost solves the equation. -/
theorem gap_target_orbit_lt (h0 : 0 ≤ p.alpha) {k : ℕ} (hk : p.Settles k) :
    gap p.preTrust.size (p.target (p.orbit (k + 1)).entry) (p.orbit (k + 1)).entry < p.epsilon := by
  have hsmall : p.change k < p.epsilon := by simpa [Settles] using hk
  rw [change_eq_gap] at hsmall
  have hpos := gap_nonneg p.preTrust.size (p.orbit (k + 1)).entry (p.orbit k).entry
  calc gap p.preTrust.size (p.target (p.orbit (k + 1)).entry) (p.orbit (k + 1)).entry
      = gap p.preTrust.size (p.target (p.orbit (k + 1)).entry) (p.target (p.orbit k).entry) :=
        gap_congr (fun _ _ => rfl) fun j hj => p.entry_orbit_succ k hj
    _ ≤ (1 - p.alpha) * gap p.preTrust.size (p.orbit (k + 1)).entry (p.orbit k).entry :=
        gap_target_le hC h1 _ _
    _ ≤ gap p.preTrust.size (p.orbit (k + 1)).entry (p.orbit k).entry :=
        mul_le_of_le_one_left hpos (by linarith)
    _ < p.epsilon := hsmall

/-- After a small change the vector is close to every solution. -/
theorem gap_orbit_le (h0 : 0 < p.alpha) {k : ℕ} (hk : p.Settles k) {t : ℕ → ℚ}
    (ht : ∀ j < p.preTrust.size, p.target t j = t j) :
    gap p.preTrust.size (p.orbit (k + 1)).entry t ≤ (1 - p.alpha) / p.alpha * p.epsilon := by
  have hsmall : p.change k < p.epsilon := by simpa [Settles] using hk
  rw [change_eq_gap, gap_comm] at hsmall
  -- the vector and the solution are images of the vector before and of the solution
  have himage : gap p.preTrust.size (p.orbit (k + 1)).entry t =
      gap p.preTrust.size (p.target (p.orbit k).entry) (p.target t) :=
    gap_congr (fun j hj => p.entry_orbit_succ k hj) fun j hj => (ht j hj).symm
  have hcontract := gap_target_le hC h1 (p.orbit k).entry t
  have htriangle := gap_triangle p.preTrust.size (p.orbit k).entry (p.orbit (k + 1)).entry t
  have hleft : 0 ≤ 1 - p.alpha := sub_nonneg.mpr h1
  have hscaled : p.alpha * gap p.preTrust.size (p.orbit (k + 1)).entry t ≤
      (1 - p.alpha) * p.epsilon := by
    have hmul := mul_le_mul_of_nonneg_left htriangle hleft
    have hmul' := mul_le_mul_of_nonneg_left hsmall.le hleft
    rw [← himage] at hcontract
    linarith
  rw [div_mul_eq_mul_div, le_div_iff₀ h0]
  linarith

end Stochastic

/-! ### Settled iterations -/

/-- A fresh iteration that converges ends after the step that settles. -/
theorem exists_settles_of_hasConverged {K : Type} [Number K] {p p' : PowerIteration K} {r : Vec K}
    (hp : p.progress = .notStarted) (hrun : p.converge = .ok (r, p'))
    (hconv : p'.progress.hasConverged = true) :
    ∃ k, p.Settles k ∧ k < p.limit ∧ r = (p.orbit (k + 1)).normalize ∧
      p'.progress = .converged (k + 1) r := by
  rw [converge_eq p hp] at hrun
  obtain ⟨rfl, rfl⟩ := Prod.mk.inj (Except.ok.inj hrun)
  rw [Progress.hasConverged_ofOutcome] at hconv
  rcases p.outcome_cases with ⟨k, hlt, hsettles, -, ho⟩ | ⟨-, ho⟩
  · rw [ho]
    exact ⟨k, hsettles, hlt, rfl, rfl⟩
  · rw [ho] at hconv
    cases hconv

/-- **Accuracy of a settled result.** Over a row-stochastic matrix, an iteration from a distribution
that converges returns a distribution, the last vector it ran through, which the final scaling does
not move. One more step would move it by less than `epsilon`; and if `alpha` is positive, it is no
further than `(1 - alpha) / alpha * epsilon` from any distribution that solves the equation. -/
theorem settled_accurate {preTrust r : Vec ℚ} {matrix : Matrix ℚ} {limit : ℕ} {epsilon alpha : ℚ}
    {p p' : PowerIteration ℚ} (hstart : start preTrust matrix limit epsilon alpha = .ok p)
    (hC : matrix.RowStochastic) (hq : preTrust.IsDistribution) (h0 : 0 ≤ alpha) (h1 : alpha ≤ 1)
    (hrun : p.converge = .ok (r, p')) (hconv : p'.progress.hasConverged = true) :
    r.IsDistribution ∧ r.size = preTrust.size ∧ r = p.orbit p'.progress.iterations ∧
      gap preTrust.size (p.target r.entry) r.entry < epsilon ∧
      (0 < alpha → ∀ t : Vec ℚ, t.IsDistribution → t.size = preTrust.size →
        (∀ j < preTrust.size, p.target t.entry j = t.entry j) →
        gap preTrust.size r.entry t.entry ≤ (1 - alpha) / alpha * epsilon) := by
  unfold start at hstart
  split_ifs at hstart with square fits
  cases hstart
  obtain ⟨k, hk, -, rfl, hprogress⟩ := exists_settles_of_hasConverged rfl hrun hconv
  let p : PowerIteration ℚ := ⟨preTrust, matrix, limit, epsilon, alpha, .notStarted, square, fits⟩
  have hd : (p.orbit (k + 1)).IsDistribution := isDistribution_orbit hC hq h0 h1 (k + 1)
  rw [hd.normalize_eq] at hprogress ⊢
  rw [hprogress]
  exact ⟨hd, size_orbit _ _, rfl, gap_target_orbit_lt hC h1 h0 hk,
    fun hpos t _ _ ht => gap_orbit_le hC h1 hpos hk ht⟩

/-- Two peers who trust only each other, one of them pre-trusted. -/
theorem settled_accurate_mutual :
    let p : PowerIteration ℚ :=
      ⟨⟨[1, 0]⟩, ⟨2, 2, [0, 1, 1, 0], rfl⟩, 5, 1 / 3, 1 / 2, .notStarted, rfl, rfl⟩
    start p.preTrust p.matrix p.limit p.epsilon p.alpha = .ok p ∧ p.matrix.RowStochastic ∧
      p.preTrust.IsDistribution ∧ ∃ r p', p.converge = .ok (r, p') ∧
        p'.progress.hasConverged = true ∧
        gap 2 (p.target r.entry) r.entry < 1 / 3 ∧
        gap 2 r.entry (⟨[2 / 3, 1 / 3]⟩ : Vec ℚ).entry ≤ (1 - 1 / 2) / (1 / 2) * (1 / 3) := by
  intro p
  have hq : p.preTrust.IsDistribution := ⟨by decide, by decide +kernel⟩
  have hC : p.matrix.RowStochastic := by
    intro row hrow
    have hrow : row ∈ [⟨[0, 1]⟩, (⟨[1, 0]⟩ : Vec ℚ)] := hrow
    rcases List.mem_pair.mp hrow with rfl | rfl
    · exact ⟨by decide, by decide +kernel⟩
    · exact hq
  have houtcome : p.outcome.1 = true := by decide +kernel
  have hrun := converge_eq p rfl
  have hconv := (Progress.hasConverged_ofOutcome (p.orbit p.outcome.2).normalize p.outcome).trans
    houtcome
  obtain ⟨-, -, -, hresidual, hsolution⟩ :=
    settled_accurate rfl hC hq (by norm_num) (by norm_num) hrun hconv
  have ht : (⟨[2 / 3, 1 / 3]⟩ : Vec ℚ).IsDistribution := ⟨by decide +kernel, by decide +kernel⟩
  exact ⟨rfl, hC, hq, _, _, hrun, hconv, hresidual,
    hsolution (by norm_num) _ ht rfl (by decide +kernel)⟩

end PowerIteration

end Reputation
