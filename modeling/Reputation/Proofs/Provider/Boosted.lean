import Reputation.Proofs.Context
import Reputation.Proofs.Provider.Serving
import Reputation.Provider.Boosted

/-! # Boosts keep distributions

A boost takes no trust away, so the boosted trust has mass, and scaling makes a distribution of it
again: `Provider.Serves.boosted`. -/

namespace Reputation

open Number

namespace Provider

section Tabulated
variable {K : Type} [Number K] (weight : UInt32) (least : UInt64)

/-- The trust `f` with the boosts from experience; the local peer gets none. -/
def withBoost (home : Peer) (store : Experiences) (f : Peer → K) (p : Peer) : K :=
  if p.same home then f p else boost weight least (store.peek home p).successes (f p)

theorem boostedTrust_tabulate {a : Assessment K} {f : Peer → K}
    (h : a.trust = Vec.tabulate a.context.peers f) (store : Experiences) :
    boostedTrust weight least a store =
      Vec.tabulate a.context.peers (Vec.scaled a.context.peers
        (withBoost weight least a.context.home store f)) := by
  rw [← Vec.normalize_tabulate]
  unfold boostedTrust
  simp only [h, Vec.entries_tabulate, List.zipWith_map_right, List.zipWith_self]
  rfl

theorem size_boostedTrust (a : Assessment K) (store : Experiences) :
    (boostedTrust weight least a store).size = a.context.peers.length := by
  obtain ⟨f, hf⟩ := a.exists_tabulate
  rw [boostedTrust_tabulate weight least hf, Vec.size_tabulate]

end Tabulated

/-! ### A single boost -/

section Boost
variable {weight : UInt32} {least calls : UInt64}

theorem boost_eq_self (h : least ≤ calls) (x : ℚ) : boost weight least calls x = x :=
  if_neg (UInt64.not_lt.mpr h)

theorem boost_eq_add (h : calls < least) (x : ℚ) : boost weight least calls x =
    x + weight.toNat / 100 * (least.toNat - calls.toNat) / least.toNat := by
  unfold boost
  rw [if_pos h]
  simp only [ofNat_rat, Nat.cast_ofNat]

/-- **No boost is negative.** -/
theorem le_boost (weight : UInt32) (least calls : UInt64) (x : ℚ) :
    x ≤ boost weight least calls x := by
  by_cases h : calls < least
  · have hc : (calls.toNat : ℚ) ≤ least.toNat := by
      exact_mod_cast (UInt64.lt_iff_toNat_lt.mp h).le
    rw [boost_eq_add h]
    exact le_add_of_nonneg_right
      (div_nonneg (mul_nonneg (by positivity) (sub_nonneg.mpr hc)) (Nat.cast_nonneg _))
  · exact (boost_eq_self (UInt64.not_lt.mp h) x).ge

end Boost

/-! ### The trust of all peers -/

theorem le_withBoost (weight : UInt32) (least : UInt64) (home : Peer) (store : Experiences)
    (f : Peer → ℚ) (p : Peer) : f p ≤ withBoost weight least home store f p := by
  unfold withBoost
  split_ifs
  · exact le_rfl
  · exact le_boost _ _ _ _

theorem isDistribution_boostedTrust (weight : UInt32) (least : UInt64) {a : Assessment ℚ}
    (h : a.trust.IsDistribution) (store : Experiences) :
    (boostedTrust weight least a store).IsDistribution := by
  obtain ⟨f, hf⟩ := a.exists_tabulate
  rw [hf, Vec.isDistribution_tabulate] at h
  obtain ⟨hnonneg, hsum⟩ := h
  have hle := le_withBoost weight least a.context.home store f
  have hpos : 0 < (a.context.peers.map (withBoost weight least a.context.home store f)).sum := by
    calc (0 : ℚ) < 1 := one_pos
      _ = (a.context.peers.map f).sum := hsum.symm
      _ ≤ _ := List.sum_le_sum fun p _ => hle p
  rw [boostedTrust_tabulate weight least hf]
  exact Vec.isDistribution_scaled (fun p hp => (hnonneg p hp).trans (hle p)) hpos

variable {σ : Type}

/-! ### The provider -/

section Answer
variable {K : Type} [Number K] {inner : Provider K σ} {c : Context} {own own' : σ}
  {env env' : Environment K}

theorem boosted_of_error {f : Failure} (h : inner c own env = (.error f, own', env'))
    (weight : UInt32) (least : UInt64) :
    boosted weight least inner c own env = (.error f, own', env') := by
  unfold boosted
  rw [h]

variable {a : Assessment K} (h : inner c own env = (.ok a, own', env')) {weight : UInt32}
  {least : UInt64}
include h

theorem boosted_of_off (hoff : weight = 0 ∨ least = 0) :
    boosted weight least inner c own env = (.ok a, own', env') := by
  unfold boosted
  rw [h]
  exact if_pos hoff

/-- **The answer with boosts**, after which the experiences that were asked for are in the store that
the answer is about. -/
theorem boosted_of_on (hon : ¬ (weight = 0 ∨ least = 0)) :
    boosted weight least inner c own env =
      (.ok ⟨a.context, boostedTrust weight least a (env'.experiences a.context.store),
          size_boostedTrust _ _ _ _⟩,
        own', env'.keep a.context.store (a.context.others.foldl
          (fun s p => s.touch a.context.home p) (env'.experiences a.context.store))) := by
  unfold boosted
  rw [h]
  simp only
  rw [if_neg hon, Assessment.build_eq_ok
    (size_boostedTrust weight least a (env'.experiences a.context.store))]
  rfl

end Answer

variable {inner : Provider ℚ σ} {asks admissible : Context → Prop} {inv : σ → Prop}

/-- **A boost passes on distributions.** -/
theorem Serves.boosted (h : inner.Serves asks inv fun _ => Assessment.Spreads admissible)
    (weight : UInt32) (least : UInt64) :
    (boosted weight least inner).Serves asks inv fun _ => Assessment.Spreads admissible := by
  intro c own env hc hf hi
  obtain ⟨a, own', env', hp, hi', hr, hac, hd⟩ := h c own env hc hf hi
  by_cases hoff : weight = 0 ∨ least = 0
  · exact ⟨a, own', env', boosted_of_off hp hoff, hi', hr, hac, hd⟩
  · have hb := isDistribution_boostedTrust weight least hd (env'.experiences a.context.store)
    exact ⟨_, own', _, boosted_of_on hp hoff, hi', hr, hac, hb⟩

end Provider

end Reputation
