import Mathlib.Algebra.Order.Field.Power
import Mathlib.Tactic.Linarith
import Mathlib.Tactic.Positivity
import Reputation.Proofs.Context
import Reputation.Proofs.EigenTrust.Engine
import Reputation.Proofs.Linear.Distribution

/-! # The trust matrix is row-stochastic

Opinions are non-negative, and the floor makes a peer's opinion of itself positive, so each row of
local trust has mass. The mean of contrasts lies between minus one and one (`abs_agreement_le`), so
weighing by credibility keeps a row non-negative and its own entry as it is. Scaling makes
distributions of all of them: `isDistribution_regard`, `regard_self_pos`. -/

namespace Reputation

open Number

/-! ### Scores and opinions -/

/-- No experience is scored below zero. -/
def Scoring.Nonneg (s : Scoring ℚ) : Prop := ∀ e, 0 ≤ s.trust e

theorem Engine.scoring_nonneg (a : Algorithm) : (Engine.ofAlgorithm a).scoring.Nonneg := by
  cases a <;> exact fun _ => Nat.cast_nonneg _

namespace LocalTrust

theorem selfFloor_pos : (0 : ℚ) < selfFloor := by
  change (0 : ℚ) < (1 : ℕ) * 10 ^ (-9 : ℤ)
  positivity

section Opinion
variable {s : Scoring ℚ} (hs : s.Nonneg) (store : Experiences) (c : Context) (p : Peer)
include hs

theorem opinion_nonneg (q : Peer) : 0 ≤ opinion s store c p q := by
  have hx : ∀ x : ℚ, 0 ≤ x → (0 : ℚ) ≤ if q.same p then raise selfFloor x else x := by
    intro x h
    split_ifs
    · rw [raise_rat]; exact h.trans (le_max_right _ _)
    · exact h
  refine hx _ ?_
  split_ifs
  · exact c.preTrusted.share_nonneg _ _
  · exact le_rfl
  · exact hs _

omit hs in
theorem opinion_self_pos : 0 < opinion s store c p p := by
  unfold opinion
  rw [if_pos p.same_self, raise_rat]
  exact lt_max_of_lt_left selfFloor_pos

theorem sum_opinion_pos (hp : p ∈ c.peers) : 0 < (c.peers.map (opinion s store c p)).sum :=
  (opinion_self_pos store c p).trans_le
    (le_sum_map (fun q _ => opinion_nonneg hs store c p q) hp)

/-- **A row of local trust is a distribution.** -/
theorem isDistribution_scaled_opinion (hp : p ∈ c.peers) :
    (Vec.tabulate c.peers (Vec.scaled c.peers (opinion s store c p))).IsDistribution :=
  Vec.isDistribution_scaled (fun q _ => opinion_nonneg hs store c p q)
    (sum_opinion_pos hs store c p hp)

theorem scaled_opinion_self_pos (hp : p ∈ c.peers) :
    0 < Vec.scaled c.peers (opinion s store c p) p := by
  rw [Vec.scaled_eq_div (fun q _ => opinion_nonneg hs store c p q) hp]
  exact div_pos (opinion_self_pos store c p) (sum_opinion_pos hs store c p hp)

end Opinion

end LocalTrust

/-! ### Credibility -/

theorem Scoring.abs_contrast_le {a b : ℚ} (ha : 0 ≤ a) (hb : 0 ≤ b) : |contrast a b| ≤ 1 := by
  unfold contrast
  simp only [eq_rat, zero_rat, decide_eq_true_eq]
  split_ifs with h
  · simp
  · rw [abs_div, abs_of_nonneg (add_nonneg ha hb)]
    refine div_le_one_of_le₀ (abs_le.mpr ⟨by linarith, by linarith⟩) (add_nonneg ha hb)

namespace Feedback

theorem average_rat (xs : List ℚ) : average xs = xs.sum / xs.length := by
  unfold average
  split_ifs with h
  · rw [h, Nat.cast_zero, div_zero, zero_rat]
  · rw [List.sum_eq_foldl]
    rfl

/-- An average of numbers between minus one and one is one of them. -/
theorem abs_average_le {xs : List ℚ} (h : ∀ x ∈ xs, |x| ≤ 1) : |average xs| ≤ 1 := by
  have hupper : xs.sum ≤ xs.length • (1 : ℚ) :=
    List.sum_le_card_nsmul xs 1 fun x hx => (abs_le.mp (h x hx)).2
  have hlower : xs.length • (-1 : ℚ) ≤ xs.sum :=
    List.card_nsmul_le_sum xs (-1) fun x hx => (abs_le.mp (h x hx)).1
  rw [nsmul_eq_mul] at hupper hlower
  rw [average_rat, abs_div, Nat.abs_cast]
  exact div_le_one_of_le₀ (abs_le.mpr ⟨by linarith, by linarith⟩) (Nat.cast_nonneg _)

theorem abs_agreement_le (es : List (Experience × Experience)) : |(agreement es : ℚ)| ≤ 1 := by
  rw [agreement_eq]
  refine abs_average_le fun x hx => ?_
  obtain ⟨ef, -, rfl⟩ := List.mem_map.mp hx
  exact Scoring.abs_contrast_le (Nat.cast_nonneg _) (Nat.cast_nonneg _)

/-- **Credibility lies between minus one and one.** -/
theorem abs_credibility_le (store : Experiences) (ps : List Peer) (p q : Peer) :
    |(credibility store ps p q : ℚ)| ≤ 1 := by
  unfold credibility
  split_ifs
  · simp
  · exact abs_agreement_le _

section Weighted
variable {ps : List Peer} {p : Peer} {f g : Peer → ℚ} (hf : ∀ q ∈ ps, 0 ≤ f q)
  (hg : ∀ q, |g q| ≤ 1)
include hf hg

theorem weighted_nonneg : ∀ q ∈ ps, 0 ≤ weighted p f g q := by
  intro q hq
  unfold weighted
  refine mul_nonneg (hf q hq) ?_
  simp only [one_rat, abs_rat]
  split_ifs
  · exact zero_le_one
  · exact sub_nonneg.mpr (hg q)

omit hf hg in
theorem weighted_self : weighted p f g p = f p := by
  unfold weighted
  rw [if_pos p.same_self, one_rat, mul_one]

theorem sum_weighted_pos (hp : p ∈ ps) (hfp : 0 < f p) : 0 < (ps.map (weighted p f g)).sum := by
  have h := le_sum_map (weighted_nonneg (p := p) hf hg) hp
  rw [weighted_self] at h
  exact hfp.trans_le h

/-- **A weighed row is a distribution again.** -/
theorem isDistribution_discounted (hd : (Vec.tabulate ps f).IsDistribution) (hp : p ∈ ps)
    (hfp : 0 < f p) : (Vec.tabulate ps (discounted ps p f g)).IsDistribution := by
  unfold discounted
  split_ifs
  · exact hd
  · exact Vec.isDistribution_scaled (weighted_nonneg hf hg) (sum_weighted_pos hf hg hp hfp)

theorem discounted_self_pos (hp : p ∈ ps) (hfp : 0 < f p) : 0 < discounted ps p f g p := by
  unfold discounted
  split_ifs
  · exact hfp
  · rw [Vec.scaled_eq_div (weighted_nonneg hf hg) hp, weighted_self]
    exact div_pos hfp (sum_weighted_pos hf hg hp hfp)

end Weighted

end Feedback

/-! ### The matrix -/

namespace Engine

section Regard
variable {e : Engine ℚ} (he : e.scoring.Nonneg) (store : Experiences) {c : Context} {p : Peer}
  (hp : p ∈ c.peers)
include he hp

/-- **Each row of the trust matrix is a distribution.** -/
theorem isDistribution_regard : (Vec.tabulate c.peers (e.regard store c p)).IsDistribution := by
  have hd := LocalTrust.isDistribution_scaled_opinion he store c p hp
  unfold regard
  split_ifs
  · exact Feedback.isDistribution_discounted (Vec.isDistribution_tabulate.mp hd).1
      (Feedback.abs_credibility_le store c.peers p) hd hp
      (LocalTrust.scaled_opinion_self_pos he store c p hp)
  · exact hd

theorem regard_self_pos : 0 < e.regard store c p p := by
  have hd := LocalTrust.isDistribution_scaled_opinion he store c p hp
  have hpos := LocalTrust.scaled_opinion_self_pos he store c p hp
  unfold regard
  split_ifs
  · exact Feedback.discounted_self_pos (Vec.isDistribution_tabulate.mp hd).1
      (Feedback.abs_credibility_le store c.peers p) hp hpos
  · exact hpos

end Regard

/-- **The trust matrix is row-stochastic.** Once the rows of all peers of a context were computed, in
any order and into any tables, and the credibility where feedback is weighed, the matrix has a row
and a column for each peer. Its rows are distributions, its diagonal is positive, and all of its
cells together sum up to the number of peers. -/
theorem matrix_rowStochastic (a : Algorithm) (c : Context) {order : List Peer}
    (ho : c.peers ⊆ order) (o : Opinions ℚ) (store : Experiences)
    (hs : a = .eigenTrustPlusPlus → store.Countable c.peers) :
    ∃ o' store' m, (ofAlgorithm a).gather order c o store = .ok (o', store') ∧
      (ofAlgorithm a).matrix o' c.peers = .ok m ∧
      m.rows = c.peers.length ∧ m.cols = c.peers.length ∧
      (∀ r ∈ m.toRows, (∀ x ∈ r.entries, 0 ≤ x) ∧ r.sum = 1) ∧
      (∀ i < c.peers.length, ∃ x, m.get i i = .ok x ∧ 0 < x) ∧
      Number.sum m.cells = c.peers.length := by
  obtain ⟨o', store', m, hg, -, hm, ht⟩ := gather_spec a c ho o store hs
  have hr : m.RowStochastic :=
    ht.rowStochastic_iff.mpr fun p hp => isDistribution_regard (scoring_nonneg a) store hp
  refine ⟨o', store', m, hg, hm, ht.rows_eq, ht.cols_eq,
    fun r h => ⟨(hr r h).nonneg, (hr r h).sum_eq⟩, fun i hi => ?_,
    by rw [hr.sum_cells, ht.rows_eq]⟩
  have hp : c.peers[i]? = some c.peers[i] := List.getElem?_eq_getElem hi
  exact ⟨_, ht.get_eq hp hp, regard_self_pos (scoring_nonneg a) store (List.getElem_mem hi)⟩

/-- The rows of three peers, computed from the last one on. -/
theorem matrix_rowStochastic_trio :
    let c := Context.trio .defaults
    let order : List Peer := [.named "m", .named "b", .named "a"]
    let store := (Experiences.empty.put (.named "a") (.named "b") ⟨3, 1, .zero⟩).put
      (.named "b") (.named "m") ⟨2, 5, .zero⟩
    c.peers ⊆ order ∧ store.Countable c.peers ∧
      ∃ o' store' m, (ofAlgorithm .eigenTrustPlusPlus).gather order c .empty store =
          .ok (o', store') ∧
        (ofAlgorithm .eigenTrustPlusPlus).matrix o' c.peers = .ok m ∧
        m.rows = 3 ∧ Number.sum m.cells = (3 : ℚ) := by
  intro c order store
  have ho : c.peers ⊆ order := by decide
  have hs : store.Countable c.peers := Experiences.countable_of_fits (Experiences.fits_put
    (Experiences.fits_put Experiences.fits_empty (by decide) _ _) (by decide) _ _) _
  obtain ⟨o', store', m, hg, hm, hr, -, -, -, hc⟩ :=
    matrix_rowStochastic .eigenTrustPlusPlus c ho .empty store fun _ => hs
  exact ⟨ho, hs, o', store', m, hg, hm, hr, hc⟩

end Engine

end Reputation
