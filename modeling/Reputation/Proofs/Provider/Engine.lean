import Reputation.Proofs.EigenTrust.TrustMatrix
import Reputation.Proofs.PowerIteration.Convergence
import Reputation.Proofs.Provider.Serving

/-! # Engines as providers

With a weight of the pre-trust between zero and one, the trail of an engine is a distribution after
any number of steps, so an engine answers every question about a context by a distribution over the
peers of this context: `Engine.serves_provider`. -/

namespace Reputation

open Number

theorem Context.peers_ne_nil (c : Context) : c.peers ≠ [] := by
  intro h
  have hm := c.home_mem
  rw [h] at hm
  cases hm

namespace Engine

section Trail
variable {e : Engine ℚ} (he : e.scoring.Nonneg) (store : Experiences) {c : Context}
  (h0 : 0 ≤ (tuning c.params : Tuning ℚ).alpha) (h1 : (tuning c.params : Tuning ℚ).alpha ≤ 1)
include he h0 h1

theorem isDistribution_trail (k : ℕ) :
    (Vec.tabulate c.peers (e.trail store c k)).IsDistribution := by
  have hM : ∀ p ∈ c.peers, (Vec.tabulate c.peers (e.regard store c p)).IsDistribution :=
    fun p hp => isDistribution_regard he store hp
  have hq := c.preTrusted.isDistribution_share c.peers_ne_nil
  induction k with
  | zero => exact hq
  | succ k ih =>
    rw [trail_succ]
    exact PowerIteration.isDistribution_blend hM hq h0 h1 ih

end Trail

/-- **An engine answers every question** about a context whose weight of the pre-trust lies between
zero and one. -/
theorem serves_provider (a : Algorithm) {asks : Context → Prop}
    (ha : ∀ c, asks c → 0 ≤ (tuning c.params : Tuning ℚ).alpha ∧
      (tuning c.params : Tuning ℚ).alpha ≤ 1) :
    (ofAlgorithm a : Engine ℚ).provider.Serves asks (fun _ => True)
      fun _ => Assessment.Spreads asks := by
  intro c o env hc hf _
  have hs : a = .eigenTrustPlusPlus → (env.experiences c.store).Countable c.peers :=
    fun _ => Experiences.countable_of_fits hf c.peers
  obtain ⟨r, notices, o', store', hr, hrc, -, k, ht⟩ :=
    compute_spec a c o (env.experiences c.store) hs
  have hd := isDistribution_trail (scoring_nonneg a) (env.experiences c.store) (ha c hc).1
    (ha c hc).2 k
  refine ⟨r, o', (env.tellAll notices).keep c.store store', ?_, trivial, rfl, ?_, ?_⟩
  · unfold provider
    rw [hr]
  · rw [hrc]; exact hc
  · rw [ht, ← Vec.normalize_tabulate, hd.normalize_eq]
    exact hd

end Engine

end Reputation
