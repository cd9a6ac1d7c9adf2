import Mathlib.Order.Bounds.Basic
import Reputation.Proofs.PowerIteration.Orbit

/-! # Calls of an iteration

An iteration is called any number of times, and only its first call makes steps. `PowerIteration.Ends`
says where that call has to end, by the changes of the orbit alone: converged at the least step whose
change is below epsilon, or exhausted at the limit if there is none. No arithmetic is needed for it, so
it holds for all numbers, those that are none included. Later calls repeat the answer and leave the
iteration as it is: `converge_calls`. -/

namespace Reputation

open Number

namespace PowerIteration

variable {K : Type} [Number K]

/-- The steps within the limit after which the vector before and the vector after are closer than
epsilon. -/
def closeSteps (p : PowerIteration K) : Set ℕ :=
  {k | 1 ≤ k ∧ k ≤ p.limit ∧ lt (p.change (k - 1)) p.epsilon = true}

instance (p : PowerIteration K) (k : ℕ) : Decidable (k ∈ p.closeSteps) :=
  inferInstanceAs (Decidable (_ ∧ _ ∧ _))

/-- **Where an iteration ends**, with the vector `r`. -/
inductive Ends (p : PowerIteration K) (r : Vec K) : Progress K → Prop where
  | converged {k : ℕ} (h : IsLeast p.closeSteps k) : Ends p r (.converged k r)
  | exhausted (h : p.closeSteps = ∅) : Ends p r (.exhausted p.limit r)

/-- **Several calls** in a row, with their answers. -/
def calls : ℕ → PowerIteration K → Except TrustError (List (Vec K) × PowerIteration K)
  | 0, p => .ok ([], p)
  | n + 1, p => do
    let (t, p) ← p.converge
    let (ts, p) ← calls n p
    .ok (t :: ts, p)

theorem mem_closeSteps_succ {p : PowerIteration K} {k : ℕ} :
    k + 1 ∈ p.closeSteps ↔ k < p.limit ∧ p.Settles k := by
  constructor
  · rintro ⟨-, hlt, hclose⟩
    exact ⟨hlt, hclose⟩
  · rintro ⟨hlt, hclose⟩
    exact ⟨by omega, hlt, hclose⟩

/-- **The outcome is where the iteration has to end.** -/
theorem ends_ofOutcome (p : PowerIteration K) (r : Vec K) :
    p.Ends r (Progress.ofOutcome r p.outcome) := by
  rcases p.outcome_cases with ⟨n, hlt, hs, hfirst, ho⟩ | ⟨hnone, ho⟩
  · rw [ho]
    -- changes are counted from zero, steps from one
    refine .converged ⟨mem_closeSteps_succ.mpr ⟨hlt, hs⟩, fun k hk => ?_⟩
    obtain ⟨j, rfl⟩ : ∃ j, k = j + 1 := ⟨k - 1, by have := hk.1; omega⟩
    by_contra hj
    exact hfirst j (by omega) (mem_closeSteps_succ.mp hk).2
  · rw [ho]
    refine .exhausted (Set.eq_empty_of_forall_notMem fun k hk => ?_)
    obtain ⟨j, rfl⟩ : ∃ j, k = j + 1 := ⟨k - 1, by have := hk.1; omega⟩
    obtain ⟨hlt, hs⟩ := mem_closeSteps_succ.mp hk
    exact hnone j hlt hs

/-- A step, by the operations on vectors. -/
theorem exists_propagated (p : PowerIteration K) (k : ℕ) :
    ∃ u, p.matrix.transposeMultiply (p.orbit k) = .ok u ∧
      (u.scale (one - p.alpha)).add (p.preTrust.scale p.alpha) = .ok (p.orbit (k + 1)) := by
  have hstep := p.step_orbit k
  unfold step at hstep
  cases hu : p.matrix.transposeMultiply (p.orbit k) with
  | error e =>
    rw [hu] at hstep
    cases hstep
  | ok u =>
    rw [hu] at hstep
    exact ⟨u, rfl, hstep⟩

/-! ### Later calls -/

/-- An iteration that has ended repeats its answer. -/
theorem converge_of_trust? {p : PowerIteration K} {r : Vec K} (h : p.progress.trust? = some r) :
    p.converge = .ok (r, p) := by
  unfold converge
  rw [h]

theorem calls_of_trust? {p : PowerIteration K} {r : Vec K} (h : p.progress.trust? = some r)
    (n : ℕ) : p.calls n = .ok (List.replicate n r, p) := by
  induction n with
  | zero => rfl
  | succ n ih =>
    unfold calls
    rw [converge_of_trust? h]
    change (p.calls n >>= _) = _
    rw [ih]
    rfl

omit [Number K] in
theorem Progress.trust?_ofOutcome (t : Vec K) (x : Bool × ℕ) :
    (Progress.ofOutcome t x).trust? = some t := by
  obtain ⟨settled, n⟩ := x
  cases settled <;> rfl

/-- **The calls of an iteration.** The vectors of its orbit start at the pre-trust and are made by the
operations on vectors, none of which refuses. The first call answers with the one where the iteration
has to end, scaled, and keeps it; every further call gives the same answer and changes nothing. -/
theorem converge_calls {preTrust : Vec K} {matrix : Matrix K} {limit : ℕ} {epsilon alpha : K}
    {p : PowerIteration K} (hstart : start preTrust matrix limit epsilon alpha = .ok p) :
    p.limit = limit ∧ p.epsilon = epsilon ∧ p.progress = .notStarted ∧ p.orbit 0 = preTrust ∧
      (∀ k, (∃ u, matrix.transposeMultiply (p.orbit k) = .ok u ∧
          (u.scale (one - alpha)).add (preTrust.scale alpha) = .ok (p.orbit (k + 1))) ∧
        (p.orbit (k + 1)).distance (p.orbit k) = .ok (p.change k)) ∧
      ∃ r progress, p.Ends r progress ∧ r = (p.orbit progress.iterations).normalize ∧
        progress.trust? = some r ∧ p.converge = .ok (r, { p with progress }) ∧
        ∀ n, p.calls (n + 1) = .ok (List.replicate (n + 1) r, { p with progress }) ∧
          ({ p with progress } : PowerIteration K).calls n =
            .ok (List.replicate n r, { p with progress }) := by
  unfold start at hstart
  split_ifs at hstart with square fits
  cases hstart
  let p : PowerIteration K := ⟨preTrust, matrix, limit, epsilon, alpha, .notStarted, square, fits⟩
  let r := (p.orbit p.outcome.2).normalize
  have hfirst : p.converge = .ok (r, { p with progress := Progress.ofOutcome r p.outcome }) :=
    converge_eq p rfl
  have hlater := calls_of_trust? (p := { p with progress := Progress.ofOutcome r p.outcome })
    (Progress.trust?_ofOutcome r p.outcome)
  have hvector : r = (p.orbit (Progress.ofOutcome r p.outcome).iterations).normalize := by
    rw [Progress.iterations_ofOutcome]
  refine ⟨rfl, rfl, rfl, rfl, fun k => ⟨p.exists_propagated k, p.distance_orbit k⟩, r, _,
    p.ends_ofOutcome r, hvector, Progress.trust?_ofOutcome r p.outcome, hfirst,
    fun n => ⟨?_, hlater n⟩⟩
  change (p.converge >>= _) = _
  rw [hfirst]
  change (calls n { p with progress := Progress.ofOutcome r p.outcome } >>= _) = _
  rw [hlater]
  rfl

/-- In binary64, an iteration with its third change below epsilon, and one whose epsilon is not a
number. -/
theorem converge_calls_binary64 :
    let start (epsilon : Float) :=
      start ⟨[1.0, 0.0]⟩ ⟨2, 2, [0.0, 1.0, 1.0, 0.0], rfl⟩ 5 epsilon (0.5 : Float)
    (∃ p r p', start 0.3 = .ok p ∧ p.calls 3 = .ok ([r, r, r], p') ∧
      p'.progress = .converged 3 r) ∧
    ∃ p r p', start (0.0 / 0.0) = .ok p ∧ p.calls 2 = .ok ([r, r], p') ∧
      p'.progress = .exhausted 5 r := by
  intro start
  let p (epsilon : Float) : PowerIteration Float :=
    ⟨⟨[1.0, 0.0]⟩, ⟨2, 2, [0.0, 1.0, 1.0, 0.0], rfl⟩, 5, epsilon, 0.5, .notStarted, rfl, rfl⟩
  have hstart : ∀ epsilon, start epsilon = .ok (p epsilon) := fun epsilon => rfl
  constructor
  · obtain ⟨-, -, -, -, -, r, progress, hends, -, -, -, hcalls⟩ := converge_calls (hstart 0.3)
    refine ⟨_, r, _, hstart 0.3, (hcalls 2).1, ?_⟩
    have h3 : 3 ∈ (p 0.3).closeSteps := by decide +kernel
    cases hends with
    | @converged k h =>
      have hle : k ≤ 3 := h.2 h3
      have hfirst : ∀ j < 3, j ∉ (p 0.3).closeSteps := by decide +kernel
      obtain rfl : k = 3 := by
        by_contra hk
        exact hfirst k (by omega) h.1
      rfl
    | exhausted h =>
      rw [h] at h3
      cases h3
  · obtain ⟨-, -, -, -, -, r, progress, hends, -, -, -, hcalls⟩ :=
      converge_calls (hstart (0.0 / 0.0))
    refine ⟨_, r, _, hstart (0.0 / 0.0), (hcalls 1).1, ?_⟩
    cases hends with
    | @converged k h =>
      have hnone : ∀ j < 6, j ∉ (p (0.0 / 0.0)).closeSteps := by decide +kernel
      have hle : k ≤ 5 := h.1.2.1
      exact absurd h.1 (hnone k (by omega))
    | exhausted h => rfl

end PowerIteration

end Reputation
