import Reputation.Proofs.EigenTrust.Containment
import Reputation.Proofs.EigenTrust.Symmetry
import Reputation.Proofs.Provider.Engine

/-! # A network in which no one has earned trust

A context is `Silent` if none of its peers trusts another one from experience. Then each row of the
matrix is made of the pre-trust, except for the floor under a peer's trust in itself. The floor is
above the pre-trust only in peers who have none (`selfFloor_le_share`), and those have nothing to
pass on. So the pre-trust flows into itself (`regard_eq_share`, `Matrix.inflow_eq_self`), and no step
leaves it, whatever the parameters are: `trail_eq_share`, `compute_silent`.

Failures count for nothing here: credibility compares successes, of which there are none
(`credibility_eq_zero`). -/

namespace Reputation

open Number

/-- **No one in the context has trust for another one.** -/
def Context.Silent (c : Context) (a : Algorithm) (store : Experiences) : Prop :=
  ∀ p ∈ c.peers, ∀ q ∈ c.peers, p.id ≠ q.id → a.Withholds (store.peek p q)

/-! ### What a distribution keeps -/

/-- What equals a distribution is left alone by scaling. -/
theorem Vec.IsDistribution.scaled_eq {ι : Type} {is : List ι} {f g : ι → ℚ}
    (hg : (tabulate is g).IsDistribution) (hfg : ∀ i ∈ is, f i = g i) :
    ∀ i ∈ is, scaled is f i = g i := by
  intro i hi
  have hf : (tabulate is f).IsDistribution := by
    rw [tabulate_congr hfg]
    exact hg
  obtain ⟨hnonneg, hsum⟩ := isDistribution_tabulate.mp hf
  rw [scaled_eq_div hnonneg hi, hsum, div_one, hfg i hi]

/-- **A distribution flows into itself** if every index that has a part of it passes it on as it
is. -/
theorem Matrix.inflow_eq_self {ι : Type} {is : List ι} {t f : ι → ℚ} {M : ι → ι → ℚ} {j : ι}
    (hf : (Vec.tabulate is f).IsDistribution) (ht : ∀ i ∈ is, t i = f i)
    (hM : ∀ i ∈ is, f i ≠ 0 → M i j = f j) : inflow is t M j = f j := by
  have hterm : ∀ i ∈ is, t i * M i j = f i * f j := by
    intro i hi
    rw [ht i hi]
    by_cases h0 : f i = 0
    · rw [h0, zero_mul, zero_mul]
    · rw [hM i hi h0]
  rw [inflow_eq, List.map_congr_left hterm, List.sum_map_mul_right,
    (Vec.isDistribution_tabulate.mp hf).2, one_mul]

/-! ### The floor -/

/-- **The floor is no higher than a pre-trust** among up to a billion peers. -/
theorem LocalTrust.selfFloor_le_share {t : PreTrusted} {peers : List Peer}
    (hn : peers.length ≤ 10 ^ 9) (hpeers : peers ≠ []) {p : Peer}
    (hp : (t.share peers p : ℚ) ≠ 0) : (selfFloor : ℚ) ≤ t.share peers p := by
  have hfloor : (selfFloor : ℚ) = 1 / 10 ^ 9 := by
    change ((1 : ℕ) : ℚ) * 10 ^ (-9 : ℤ) = 1 / 10 ^ 9
    norm_num
  have hpart : ∀ n : ℕ, 0 < n → n ≤ peers.length → (1 : ℚ) / 10 ^ 9 ≤ 1 / n := by
    intro n hpos hle
    have hcast : (n : ℚ) ≤ 10 ^ 9 := by exact_mod_cast hle.trans hn
    exact one_div_le_one_div_of_le (by exact_mod_cast hpos) hcast
  rw [hfloor]
  unfold PreTrusted.share at hp ⊢
  simp only [one_rat, zero_rat, ofNat_rat] at hp ⊢
  split at hp
  · exact hpart _ (List.length_pos_iff.mpr hpeers) le_rfl
  · next hcount =>
    split_ifs at hp ⊢
    · exact hpart _ (Nat.pos_of_ne_zero hcount) (List.countP_le_length)
    · exact absurd rfl hp

/-! ### A silent context -/

section Silent
variable {a : Algorithm} {c : Context} {store : Experiences} (hs : c.Silent a store) {p : Peer}
  (hp : p ∈ c.peers)
include hs hp

theorem LocalTrust.weight_eq_zero :
    weight (Engine.ofAlgorithm a).scoring store p c.peers = (0 : ℚ) := by
  have hsum : weight (Engine.ofAlgorithm a).scoring store p c.peers = ((partners p c.peers).map
      fun q => ((Engine.ofAlgorithm a).scoring.trust (store.peek p q) : ℚ)).sum := by
    unfold weight
    rw [List.sum_eq_foldl, List.foldl_map]
    rfl
  rw [hsum]
  refine List.sum_eq_zero fun x hx => ?_
  obtain ⟨q, hq, rfl⟩ := List.mem_map.mp hx
  obtain ⟨hq, hqp⟩ := List.mem_filter.mp hq
  refine (Engine.scoring_eq_zero_iff a _).mpr (hs p hp q hq fun hid => ?_)
  rw [Peer.same_iff.mpr hid.symm] at hqp
  cases hqp

/-- **The opinions of a peer with pre-trust are the pre-trust.** -/
theorem LocalTrust.opinion_eq_share (hn : c.peers.length ≤ 10 ^ 9)
    (hshare : (c.preTrusted.share c.peers p : ℚ) ≠ 0) :
    ∀ q ∈ c.peers, opinion (Engine.ofAlgorithm a).scoring store c p q =
      (c.preTrusted.share c.peers q : ℚ) := by
  intro q hq
  have hfloor := selfFloor_le_share hn c.peers_ne_nil hshare
  unfold opinion
  simp only [weight_eq_zero hs hp, eq_rat, zero_rat, decide_true, if_true, raise_rat]
  split_ifs with hqp
  · rw [Peer.Distinct.eq_of_id_eq c.nodup hq hp (Peer.same_iff.mp hqp), max_eq_right hfloor]
  · rfl

end Silent

namespace Feedback

/-- **Where no one has succeeded, credibility is zero.** -/
theorem credibility_eq_zero {c : Context} {store : Experiences}
    (hs : c.Silent .eigenTrustPlusPlus store) {p : Peer} (hp : p ∈ c.peers) {q : Peer}
    (hq : q ∈ c.peers) (hqp : ¬ q.same p = true) : credibility store c.peers p q = (0 : ℚ) := by
  refine credibility_eq_zero_of_equal (fun h => hqp (Peer.same_iff.mpr h.symm)) fun r hr => ?_
  obtain ⟨hr, hrp, hrq, -, -⟩ := mem_common.mp hr
  have hnone : (store.peek p r).successes = 0 := hs p hp r hr (Ne.symm hrp)
  exact hnone.trans (hs q hq r hr (Ne.symm hrq)).symm

/-- Weighing by a credibility of zero changes nothing. -/
theorem weighted_eq_self {p : Peer} {f g : Peer → ℚ} {q : Peer}
    (hg : ¬ q.same p = true → g q = 0) : weighted p f g q = f q := by
  unfold weighted
  simp only [one_rat, abs_rat]
  split_ifs with hqp
  · rw [mul_one]
  · rw [hg hqp, abs_zero, sub_zero, mul_one]

theorem discounted_eq_self {ps : List Peer} {p : Peer} {f g : Peer → ℚ}
    (hf : (Vec.tabulate ps f).IsDistribution) (hg : ∀ q ∈ ps, ¬ q.same p = true → g q = 0) :
    ∀ q ∈ ps, discounted ps p f g q = f q := by
  intro q hq
  have hweighted : ∀ q ∈ ps, weighted p f g q = f q := fun q hq => weighted_eq_self (hg q hq)
  unfold discounted
  split_ifs
  · rfl
  · exact hf.scaled_eq hweighted q hq

end Feedback

namespace Engine

section Silent
variable {a : Algorithm} {c : Context} {store : Experiences} (hs : c.Silent a store)
  (hn : c.peers.length ≤ 10 ^ 9)
include hs hn

/-- **A peer with pre-trust passes the pre-trust on.** -/
theorem regard_eq_share {p : Peer} (hp : p ∈ c.peers)
    (hshare : (c.preTrusted.share c.peers p : ℚ) ≠ 0) :
    ∀ q ∈ c.peers, (ofAlgorithm a).regard store c p q = (c.preTrusted.share c.peers q : ℚ) := by
  have hd := c.preTrusted.isDistribution_share c.peers_ne_nil
  have hopinion := LocalTrust.opinion_eq_share hs hp hn hshare
  have hscaled : ∀ q ∈ c.peers, Vec.scaled c.peers
      (LocalTrust.opinion (ofAlgorithm a).scoring store c p) q = c.preTrusted.share c.peers q :=
    hd.scaled_eq hopinion
  intro q hq
  cases a with
  | eigenTrust => exact hscaled q hq
  | eigenTrustPlusPlus =>
    have hrow := hd
    rw [← Vec.tabulate_congr hscaled] at hrow
    have hcredibility : ∀ q ∈ c.peers, ¬ q.same p = true →
        Feedback.credibility store c.peers p q = (0 : ℚ) :=
      fun q hq => Feedback.credibility_eq_zero hs hp hq
    exact (Feedback.discounted_eq_self hrow hcredibility q hq).trans (hscaled q hq)

/-- **No step leaves the pre-trust.** -/
theorem trail_eq_share (k : ℕ) : ∀ q ∈ c.peers,
    (ofAlgorithm a).trail store c k q = (c.preTrusted.share c.peers q : ℚ) := by
  have hd := c.preTrusted.isDistribution_share c.peers_ne_nil
  induction k with
  | zero => exact fun _ _ => rfl
  | succ k ih =>
    intro q hq
    have hinflow : Matrix.inflow c.peers ((ofAlgorithm a).trail store c k)
        ((ofAlgorithm a).regard store c) q = (c.preTrusted.share c.peers q : ℚ) :=
      Matrix.inflow_eq_self hd ih fun p hp hshare => regard_eq_share hs hn hp hshare q hq
    rw [trail_succ]
    unfold PowerIteration.blend
    rw [hinflow, one_rat]
    ring

end Silent

/-- A silent context has no success that could make a count overflow. -/
theorem countable_of_silent {c : Context} {store : Experiences}
    (hs : c.Silent .eigenTrustPlusPlus store) : store.Countable c.peers := by
  intro p hp q _ r hr _ hrp _
  have hsuccesses : (store.peek p r).successes = 0 := hs p hp r hr (Ne.symm hrp)
  have hfailures := (store.peek p r).failures.toNat_lt
  unfold Experience.Fits
  rw [hsuccesses]
  simpa using hfailures

/-- **Without opinions the pre-trust is the answer.** In a silent context of less than a billion
peers the trust is exactly the pre-trust, whatever the parameters are, whatever was stored before,
and however many calls have failed. -/
theorem compute_silent (a : Algorithm) (c : Context) (o : Opinions ℚ) (store : Experiences)
    (hn : c.peers.length < 10 ^ 9) (hs : c.Silent a store) :
    ∃ r notices o' store', (ofAlgorithm a).compute c o store = .ok ((r, notices), o', store') ∧
      r.context = c ∧ r.trust = c.preTrust := by
  have hcount : a = .eigenTrustPlusPlus → store.Countable c.peers := by
    rintro rfl
    exact countable_of_silent hs
  obtain ⟨r, notices, o', store', hr, hc, -, k, htrust⟩ := compute_spec a c o store hcount
  refine ⟨r, notices, o', store', hr, hc, ?_⟩
  have htrail : ∀ q ∈ c.peers, (ofAlgorithm a).trail store c k q = c.preTrusted.share c.peers q :=
    trail_eq_share hs hn.le k
  have hd := c.preTrusted.isDistribution_share c.peers_ne_nil
  rw [htrust]
  unfold Context.preTrust
  rw [PreTrusted.distribution_eq]
  exact Vec.tabulate_congr (hd.scaled_eq htrail)

/-- Three peers who only ever failed each other, one of them as often as can be counted. -/
theorem compute_silent_trio :
    let c := Context.trio (.ofList [("ALPHA", "-7.5"), ("EPSILON", "0"), ("MAX_ITERATIONS", "9")])
    let store := ((Experiences.empty.put (.named "a") (.named "b") ⟨0, 4, .zero⟩).put
      (.named "m") (.named "b") ⟨0, 18446744073709551615, .zero⟩).put
      (.named "b") (.named "m") ⟨0, 1, .zero⟩
    c.peers.length < 10 ^ 9 ∧ c.Silent .eigenTrustPlusPlus store ∧
      ∃ (r : Assessment ℚ) (notices : List Notice) (o' : Opinions ℚ) (store' : Experiences),
        (ofAlgorithm .eigenTrustPlusPlus).compute c .empty store =
          .ok ((r, notices), o', store') ∧ r.context = c ∧ r.trust = ⟨[1, 0, 0]⟩ := by
  intro c store
  have hn : c.peers.length < 10 ^ 9 := by decide
  have hs : c.Silent .eigenTrustPlusPlus store := by
    intro p _ q _ _
    change (store.peek p q).successes = 0
    simp only [store, Experiences.peek_put, Experiences.peek_empty]
    split_ifs <;> rfl
  have hpre : (c.preTrust : Vec ℚ) = ⟨[1, 0, 0]⟩ := by
    ext1
    decide +kernel
  obtain ⟨r, notices, o', store', hr, hc, htrust⟩ :=
    compute_silent .eigenTrustPlusPlus c .empty store hn hs
  exact ⟨hn, hs, r, notices, o', store', hr, hc, htrust.trans hpre⟩

end Engine

end Reputation
