import Reputation.Proofs.EigenTrust.Retelling
import Reputation.Proofs.EigenTrust.TrustMatrix

/-! # The shape of credibility

A contrast changes its sign with the order of the two amounts (`Scoring.contrast_swap`), and which
peers two others have in common does not depend on their order (`Feedback.common_comm`). So in exact
arithmetic the credibility between two peers changes its sign with their order
(`Feedback.credibility_swap`), and its size, by which local trust is weighed, is the same in both
directions. Amounts that are equal have no contrast: two peers with the same successes have
credibility zero with each other, as have those who have called nobody both
(`Feedback.credibility_eq_zero_of_equal`).

The credibility is computed row by row, each cell on its own: `Engine.updateFeedback_balanced`. -/

namespace Reputation

open Number

/-! ### Contrasts -/

namespace Scoring

theorem contrast_swap (a b : ℚ) : contrast b a = -contrast a b := by
  unfold contrast
  rw [add_comm b a]
  split_ifs
  · exact neg_zero.symm
  · rw [← neg_div, neg_sub]

theorem contrast_self (a : ℚ) : contrast a a = 0 := by
  unfold contrast
  rw [sub_self, zero_div]
  exact ite_self _

end Scoring

namespace Feedback

/-! ### Averages -/

theorem average_neg (xs : List ℚ) : average (xs.map fun x => -x) = -average xs := by
  rw [average_rat, average_rat, List.length_map, ← List.sum_neg, neg_div]

theorem average_eq_zero {xs : List ℚ} (h : ∀ x ∈ xs, x = 0) : average xs = 0 := by
  rw [average_rat, List.sum_eq_zero h, zero_div]

/-! ### Two peers in either order -/

theorem common_comm (store : Experiences) (ps : List Peer) (p q : Peer) :
    common store ps p q = common store ps q p := by
  unfold common
  refine List.filter_congr fun r _ => ?_
  simp only [Bool.and_comm, Bool.and_left_comm]

variable {store : Experiences} {ps : List Peer} {p q : Peer}

/-- **Credibility changes its sign with the order of two peers.** -/
theorem credibility_swap (hpq : p.id ≠ q.id) :
    (credibility store ps p q : ℚ) = -credibility store ps q p := by
  rw [credibility_eq_average hpq, credibility_eq_average hpq.symm, ← average_neg, List.map_map,
    common_comm store ps p q]
  refine congrArg average (List.map_congr_left fun r _ => ?_)
  exact Scoring.contrast_swap _ _

/-- **Where two peers succeed as often with all whom both have called**, their credibility with each
other is zero. -/
theorem credibility_eq_zero_of_equal (hpq : p.id ≠ q.id)
    (h : ∀ r ∈ common store ps p q, (store.peek p r).successes = (store.peek q r).successes) :
    credibility store ps p q = (0 : ℚ) := by
  rw [credibility_eq_average hpq]
  refine average_eq_zero fun x hx => ?_
  obtain ⟨r, hr, rfl⟩ := List.mem_map.mp hx
  unfold difference
  rw [h r hr]
  exact Scoring.contrast_self _

/-- **The shape of credibility between some peers.** A peer has full credibility with itself. Between
two peers it is a number from minus one to one that changes its sign with their order, and zero if
they have called nobody both, or everybody with the same successes. What it leaves of local trust is
a part of it that is the same in both directions. -/
structure Balanced (store : Experiences) (ps : List Peer) (score : Peer → Peer → ℚ) : Prop where
  self : ∀ p ∈ ps, score p p = 1
  antisymm : ∀ p ∈ ps, ∀ q ∈ ps, p.id ≠ q.id → score p q = -score q p
  abs_le : ∀ p ∈ ps, ∀ q ∈ ps, |score p q| ≤ 1
  zero_of_disjoint : ∀ p ∈ ps, ∀ q ∈ ps, p.id ≠ q.id →
    (∀ r ∈ ps, r.id ≠ p.id → r.id ≠ q.id →
      ¬ ((store.peek p r).used = true ∧ (store.peek q r).used = true)) → score p q = 0
  zero_of_equal : ∀ p ∈ ps, ∀ q ∈ ps, p.id ≠ q.id →
    (∀ r ∈ ps, r.id ≠ p.id → r.id ≠ q.id → (store.peek p r).used = true →
      (store.peek q r).used = true → (store.peek p r).successes = (store.peek q r).successes) →
    score p q = 0
  weight_mem : ∀ p ∈ ps, ∀ q ∈ ps, 0 ≤ 1 - |score p q| ∧ 1 - |score p q| ≤ 1
  weight_comm : ∀ p ∈ ps, ∀ q ∈ ps, p.id ≠ q.id → 1 - |score p q| = 1 - |score q p|

theorem balanced_of_eq {score : Peer → Peer → ℚ}
    (h : ∀ p ∈ ps, ∀ q ∈ ps, score p q = credibility store ps p q) : Balanced store ps score where
  self p hp := by
    rw [h p hp p hp, credibility, if_pos p.same_self, one_rat]
  antisymm p hp q hq hpq := by
    rw [h p hp q hq, h q hq p hp]
    exact credibility_swap hpq
  abs_le p hp q hq := by
    rw [h p hp q hq]
    exact abs_credibility_le store ps p q
  zero_of_disjoint p hp q hq hpq hno := by
    rw [h p hp q hq]
    refine credibility_eq_zero_of_equal hpq fun r hr => ?_
    obtain ⟨hr, hrp, hrq, hpr, hqr⟩ := mem_common.mp hr
    exact absurd ⟨hpr, hqr⟩ (hno r hr hrp hrq)
  zero_of_equal p hp q hq hpq heq := by
    rw [h p hp q hq]
    refine credibility_eq_zero_of_equal hpq fun r hr => ?_
    obtain ⟨hr, hrp, hrq, hpr, hqr⟩ := mem_common.mp hr
    exact heq r hr hrp hrq hpr hqr
  weight_mem p hp q hq := by
    rw [h p hp q hq]
    exact ⟨sub_nonneg.mpr (abs_credibility_le store ps p q), sub_le_self 1 (abs_nonneg _)⟩
  weight_comm p hp q hq hpq := by
    rw [h p hp q hq, h q hq p hp, credibility_swap hpq, abs_neg]

end Feedback

namespace Engine

/-- **The credibility that is computed has this shape.** -/
theorem updateFeedback_balanced (c : Context) (o : Opinions ℚ) (store : Experiences)
    (hs : store.Countable c.peers) :
    ∃ o', eigenTrustPlusPlus.updateFeedback c o store = .ok o' ∧
      Feedback.Balanced store c.peers o'.credibility.score := by
  obtain ⟨o', ho, hscore⟩ := updateFeedback_spec hs o
  exact ⟨o', ho, Feedback.balanced_of_eq hscore⟩

/-- Two peers who differ about the third one, which has called nobody whom the first has. -/
theorem updateFeedback_balanced_trio :
    let c := Context.trio .defaults
    let store := ((Experiences.empty.put (.named "a") (.named "m") ⟨3, 1, .zero⟩).put
      (.named "b") (.named "m") ⟨1, 0, .zero⟩).put (.named "m") (.named "b") ⟨0, 4, .zero⟩
    store.Countable c.peers ∧
      ∃ o' : Opinions ℚ, eigenTrustPlusPlus.updateFeedback c .empty store = .ok o' ∧
        Feedback.Balanced store c.peers o'.credibility.score ∧
        o'.credibility.score (.named "b") (.named "a") =
          -o'.credibility.score (.named "a") (.named "b") ∧
        o'.credibility.score (.named "a") (.named "m") = 0 := by
  intro c store
  have hs : store.Countable c.peers := Experiences.countable_of_fits (Experiences.fits_put
    (Experiences.fits_put (Experiences.fits_put Experiences.fits_empty (by decide) _ _)
      (by decide) _ _) (by decide) _ _) _
  obtain ⟨o', ho, hb⟩ := updateFeedback_balanced c .empty store hs
  have hba := hb.antisymm (.named "b") (by decide) (.named "a") (by decide) (by decide)
  have ham := hb.zero_of_disjoint (.named "a") (by decide) (.named "m") (by decide) (by decide)
    (by decide +kernel)
  exact ⟨hs, o', ho, hb, hba, ham⟩

end Engine

end Reputation
