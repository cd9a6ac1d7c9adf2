import Mathlib.Data.Nat.Find
import Mathlib.Logic.Function.Iterate
import Reputation.PowerIteration
import Reputation.Proofs.Linear.Tabulated

/-! # The orbit of the pre-trust

The vectors `orbit 0, orbit 1, …` that a power iteration runs through are the pre-trust and what its
steps make of it. A step never refuses a vector of the orbit (`step_orbit`), so the loop is told by
the changes alone: it settles at the first change below `epsilon` (`iterate_settles`), or goes
through all steps that are left (`iterate_exhausts`). `converge_eq` says where a fresh iteration ends.

Over a list of indices the orbit is a sequence of functions: `orbit_tabulate`. -/

namespace Reputation

open Number

namespace PowerIteration

variable {ι K : Type} [Number K]

/-! ### Steps -/

/-- The vector after `t`; one whose size does not fit stays. -/
def next (p : PowerIteration K) (t : Vec K) : Vec K := (p.step t).toOption.getD t

/-- **The vectors of the iteration**, from the pre-trust on. -/
def orbit (p : PowerIteration K) (k : ℕ) : Vec K := p.next^[k] p.preTrust

/-- How far apart the vectors before and after step `k` are. -/
def change (p : PowerIteration K) (k : ℕ) : K :=
  ((p.orbit (k + 1)).distance (p.orbit k)).toOption.getD zero

theorem orbit_zero (p : PowerIteration K) : p.orbit 0 = p.preTrust := rfl

theorem orbit_succ (p : PowerIteration K) (k : ℕ) : p.orbit (k + 1) = p.next (p.orbit k) :=
  Function.iterate_succ_apply' _ _ _

/-- What one step makes of the function `t`. -/
def blend (is : List ι) (M : ι → ι → K) (q : ι → K) (alpha : K) (t : ι → K) (j : ι) : K :=
  Matrix.inflow is t M j * (one - alpha) + q j * alpha

section Tabulated
variable {p : PowerIteration K} {is : List ι} {M : ι → ι → K} {q : ι → K}
  (hM : p.matrix.Tabulates is M) (hq : p.preTrust = Vec.tabulate is q)
include hM hq

theorem step_tabulate (t : ι → K) :
    p.step (Vec.tabulate is t) = .ok (Vec.tabulate is (blend is M q p.alpha t)) := by
  unfold step
  rw [hM.transposeMultiply, hq]
  change ((Vec.tabulate is _).scale _).add ((Vec.tabulate is q).scale _) = _
  rw [Vec.scale_tabulate, Vec.scale_tabulate]
  exact Vec.combine_tabulate _ _ _ _

theorem orbit_tabulate (k : ℕ) :
    p.orbit k = Vec.tabulate is ((blend is M q p.alpha)^[k] q) := by
  induction k with
  | zero => rw [orbit_zero]; exact hq
  | succ k ih =>
    rw [orbit_succ, ih, next, step_tabulate hM hq, Function.iterate_succ_apply']
    rfl

theorem change_tabulate (k : ℕ) :
    p.change k = Vec.spread is ((blend is M q p.alpha)^[k + 1] q)
      ((blend is M q p.alpha)^[k] q) := by
  unfold change
  rw [orbit_tabulate hM hq, orbit_tabulate hM hq, Vec.distance_tabulate]
  rfl

end Tabulated

/-- Every iteration is one over the numbers below its size. -/
theorem exists_tabulate (p : PowerIteration K) :
    ∃ (M : ℕ → ℕ → K) (q : ℕ → K), p.matrix.Tabulates (List.range p.preTrust.size) M ∧
      p.preTrust = Vec.tabulate (List.range p.preTrust.size) q := by
  have hM := Matrix.tabulates_range p.matrix p.square
  rw [p.rows_eq] at hM
  exact ⟨_, _, hM, Vec.tabulate_range _⟩

theorem step_orbit (p : PowerIteration K) (k : ℕ) : p.step (p.orbit k) = .ok (p.orbit (k + 1)) := by
  obtain ⟨M, q, hM, hq⟩ := p.exists_tabulate
  rw [orbit_tabulate hM hq, orbit_tabulate hM hq, step_tabulate hM hq, Function.iterate_succ_apply']

theorem distance_orbit (p : PowerIteration K) (k : ℕ) :
    (p.orbit (k + 1)).distance (p.orbit k) = .ok (p.change k) := by
  obtain ⟨M, q, hM, hq⟩ := p.exists_tabulate
  rw [change_tabulate hM hq, orbit_tabulate hM hq, orbit_tabulate hM hq, Vec.distance_tabulate]

theorem size_orbit (p : PowerIteration K) (k : ℕ) : (p.orbit k).size = p.preTrust.size := by
  obtain ⟨M, q, hM, hq⟩ := p.exists_tabulate
  rw [orbit_tabulate hM hq, Vec.size_tabulate, List.length_range]

/-! ### The loop -/

/-- Did the vectors before and after step `k` come close enough? -/
def Settles (p : PowerIteration K) (k : ℕ) : Prop := lt (p.change k) p.epsilon = true

instance (p : PowerIteration K) : DecidablePred p.Settles := fun k =>
  inferInstanceAs (Decidable (lt (p.change k) p.epsilon = true))

theorem iterate_succ (p : PowerIteration K) (k remaining : ℕ) :
    p.iterate (p.orbit k) k (remaining + 1) =
      if p.Settles k then .ok (true, k + 1, p.orbit (k + 1))
      else p.iterate (p.orbit (k + 1)) (k + 1) remaining := by
  conv_lhs => unfold iterate
  rw [step_orbit]
  change ((p.orbit (k + 1)).distance (p.orbit k) >>= _) = _
  rw [distance_orbit]
  rfl

/-- **The loop ends at the first step that settles**, if one of those left does. -/
theorem iterate_settles (p : PowerIteration K) {k n remaining : ℕ} (hkn : k ≤ n)
    (hn : n < k + remaining) (hs : p.Settles n) (hf : ∀ i, k ≤ i → i < n → ¬ p.Settles i) :
    p.iterate (p.orbit k) k remaining = .ok (true, n + 1, p.orbit (n + 1)) := by
  induction remaining generalizing k with
  | zero => omega
  | succ remaining ih =>
    rw [iterate_succ]
    rcases Nat.eq_or_lt_of_le hkn with rfl | h
    · rw [if_pos hs]
    · rw [if_neg (hf k le_rfl h)]
      exact ih h (by omega) fun i hi => hf i (by omega)

/-- The loop takes all steps that are left if none of them settles. -/
theorem iterate_exhausts (p : PowerIteration K) {k remaining : ℕ}
    (hf : ∀ i, k ≤ i → i < k + remaining → ¬ p.Settles i) :
    p.iterate (p.orbit k) k remaining = .ok (false, k + remaining, p.orbit (k + remaining)) := by
  induction remaining generalizing k with
  | zero => rfl
  | succ remaining ih =>
    rw [iterate_succ, if_neg (hf k le_rfl (by omega)), ih fun i hi h => hf i (by omega) (by omega)]
    rw [show k + 1 + remaining = k + (remaining + 1) by omega]

/-! ### The outcome -/

/-- The number of steps of a fresh iteration, and whether the last of them settled. -/
def outcome (p : PowerIteration K) : Bool × ℕ :=
  if h : ∃ k, k < p.limit ∧ p.Settles k then (true, Nat.find h + 1) else (false, p.limit)

/-- **The outcome** is the first step that settles, if one within the limit does. -/
theorem outcome_cases (p : PowerIteration K) :
    (∃ k < p.limit, p.Settles k ∧ (∀ j < k, ¬ p.Settles j) ∧ p.outcome = (true, k + 1)) ∨
      (∀ k < p.limit, ¬ p.Settles k) ∧ p.outcome = (false, p.limit) := by
  unfold outcome
  by_cases h : ∃ k, k < p.limit ∧ p.Settles k
  · obtain ⟨hlt, hs⟩ := Nat.find_spec h
    refine .inl ⟨Nat.find h, hlt, hs, fun j hj hjs => ?_, dif_pos h⟩
    exact Nat.find_min h hj ⟨Nat.lt_trans hj hlt, hjs⟩
  · exact .inr ⟨fun k hk hs => h ⟨k, hk, hs⟩, dif_neg h⟩

theorem outcome_le (p : PowerIteration K) : p.outcome.2 ≤ p.limit := by
  rcases p.outcome_cases with ⟨k, hlt, -, -, ho⟩ | ⟨-, ho⟩
  · rw [ho]; exact hlt
  · rw [ho]

/-- Iterations of one limit that settle at the same steps have one outcome. -/
theorem outcome_congr {p p' : PowerIteration K} (hl : p.limit = p'.limit)
    (hs : ∀ k, p.Settles k ↔ p'.Settles k) : p.outcome = p'.outcome := by
  have he : (∃ k, k < p.limit ∧ p.Settles k) ↔ ∃ k, k < p'.limit ∧ p'.Settles k := by
    simp only [hl, hs]
  unfold outcome
  by_cases h : ∃ k, k < p.limit ∧ p.Settles k
  · have hf : Nat.find h = Nat.find (he.mp h) := Nat.find_congr' fun {k} => by rw [hl, hs]
    rw [dif_pos h, dif_pos (he.mp h), hf]
  · rw [dif_neg h, dif_neg (mt he.mpr h), hl]

/-- The progress that is kept of an outcome. -/
def Progress.ofOutcome (t : Vec K) : Bool × ℕ → Progress K
  | (true, n) => .converged n t
  | (false, n) => .exhausted n t

omit [Number K] in
theorem Progress.iterations_ofOutcome (t : Vec K) (x : Bool × ℕ) :
    (Progress.ofOutcome t x).iterations = x.2 := by
  obtain ⟨settled, n⟩ := x
  cases settled <;> rfl

omit [Number K] in
theorem Progress.hasConverged_ofOutcome (t : Vec K) (x : Bool × ℕ) :
    (Progress.ofOutcome t x).hasConverged = x.1 := by
  obtain ⟨settled, n⟩ := x
  cases settled <;> rfl

theorem iterate_preTrust (p : PowerIteration K) :
    p.iterate p.preTrust 0 p.limit = .ok (p.outcome.1, p.outcome.2, p.orbit p.outcome.2) := by
  rcases p.outcome_cases with ⟨k, hlt, hs, hfirst, ho⟩ | ⟨hnone, ho⟩
  · rw [ho]
    exact iterate_settles p (Nat.zero_le _) (by omega) hs fun i _ hi => hfirst i hi
  · have := iterate_exhausts p (k := 0) fun i _ hi => hnone i (by rwa [Nat.zero_add] at hi)
    rw [ho]
    rwa [Nat.zero_add] at this

/-- **Where a fresh iteration ends**: at the scaled vector of its orbit that the outcome names. -/
theorem converge_eq (p : PowerIteration K) (hp : p.progress = .notStarted) :
    p.converge = .ok ((p.orbit p.outcome.2).normalize,
      { p with progress := Progress.ofOutcome (p.orbit p.outcome.2).normalize p.outcome }) := by
  unfold converge
  rw [hp, Progress.trust?, iterate_preTrust]
  obtain ⟨settled, n⟩ := p.outcome
  cases settled <;> rfl

omit [Number K] in
theorem start_eq {preTrust : Vec K} {matrix : Matrix K} (square : matrix.rows = matrix.cols)
    (rows_eq : matrix.rows = preTrust.size) (limit : ℕ) (epsilon alpha : K) :
    start preTrust matrix limit epsilon alpha =
      .ok ⟨preTrust, matrix, limit, epsilon, alpha, .notStarted, square, rows_eq⟩ := by
  unfold start
  rw [dif_pos square, dif_pos rows_eq]

end PowerIteration

end Reputation
