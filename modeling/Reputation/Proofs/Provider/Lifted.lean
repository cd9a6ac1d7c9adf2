import Reputation.Proofs.Provider.Boosted

/-! # Whom a boost lifts

What a boost adds falls with the number of calls, so a peer with no more calls and no less trust than
another one stays ahead of it (`Provider.boost_le_boost`). Scaling divides by a sum that is not below
one, so no one gains who gets no boost, and if no one gets a boost the sum is one and nothing changes.
`Provider.Lifts` puts this together for the trust of all peers: `Provider.boosted_lifts`. -/

namespace Reputation

open Number

namespace Provider

/-! ### A single boost -/

section Boost
variable {weight : UInt32} {least calls calls' : UInt64} {x y : ℚ}

/-- **Whoever is called too rarely gets something.** -/
theorem lt_boost (hw : 0 < weight) (h : calls < least) (x : ℚ) : x < boost weight least calls x := by
  have hweight : (0 : ℚ) < weight.toNat := by exact_mod_cast UInt32.lt_iff_toNat_lt.mp hw
  have hlt : (calls.toNat : ℚ) < least.toNat := by exact_mod_cast UInt64.lt_iff_toNat_lt.mp h
  have hleast : (0 : ℚ) < least.toNat := (Nat.cast_nonneg _).trans_lt hlt
  rw [boost_eq_add h]
  exact lt_add_of_pos_right x
    (div_pos (mul_pos (div_pos hweight (by norm_num)) (sub_pos.mpr hlt)) hleast)

/-- **Boosts keep the order** of peers whose calls are in the opposite order. -/
theorem boost_le_boost (hc : calls ≤ calls') (hxy : y ≤ x) :
    boost weight least calls' y ≤ boost weight least calls x := by
  by_cases h : calls' < least
  · have hlt : calls < least := UInt64.lt_of_le_of_lt hc h
    have hle : (calls.toNat : ℚ) ≤ calls'.toNat := by exact_mod_cast UInt64.le_iff_toNat_le.mp hc
    rw [boost_eq_add h, boost_eq_add hlt]
    gcongr
  · rw [boost_eq_self (UInt64.not_lt.mp h)]
    exact hxy.trans (le_boost weight least calls x)

end Boost

/-! ### The trust of all peers -/

section Peers
variable {weight : UInt32} {least : UInt64} {home p q : Peer} {store : Experiences} {f : Peer → ℚ}

theorem withBoost_eq_self (h : p.id = home.id ∨ least ≤ (store.peek home p).successes) :
    withBoost weight least home store f p = f p := by
  unfold withBoost
  split_ifs with hp
  · rfl
  · exact boost_eq_self (h.resolve_left fun he => hp (Peer.same_iff.mpr he)) (f p)

theorem withBoost_of_ne (h : p.id ≠ home.id) : withBoost weight least home store f p =
    boost weight least (store.peek home p).successes (f p) :=
  if_neg fun hp => h (Peer.same_iff.mp hp)

variable {ps : List Peer}

theorem one_le_sum_withBoost (hsum : (ps.map f).sum = 1) :
    1 ≤ (ps.map (withBoost weight least home store f)).sum :=
  hsum ▸ List.sum_le_sum fun p _ => le_withBoost weight least home store f p

variable (hf : ∀ p ∈ ps, 0 ≤ f p)
include hf

/-- **The trust after a boost** is a part of the trust with all boosts. -/
theorem scaled_withBoost (hp : p ∈ ps) : Vec.scaled ps (withBoost weight least home store f) p =
    withBoost weight least home store f p / (ps.map (withBoost weight least home store f)).sum :=
  Vec.scaled_eq_div (fun q hq => (hf q hq).trans (le_withBoost weight least home store f q)) hp

variable (hsum : (ps.map f).sum = 1)
include hsum

theorem scaled_withBoost_pos (hw : 0 < weight) (hp : p ∈ ps) (hh : p.id ≠ home.id)
    (hc : (store.peek home p).successes < least) :
    0 < Vec.scaled ps (withBoost weight least home store f) p := by
  rw [scaled_withBoost hf hp, withBoost_of_ne hh]
  exact div_pos ((hf p hp).trans_lt (lt_boost hw hc (f p)))
    (one_pos.trans_le (one_le_sum_withBoost hsum))

theorem scaled_withBoost_le (hp : p ∈ ps)
    (h : p.id = home.id ∨ least ≤ (store.peek home p).successes) :
    Vec.scaled ps (withBoost weight least home store f) p ≤ f p := by
  rw [scaled_withBoost hf hp, withBoost_eq_self h]
  exact div_le_self (hf p hp) (one_le_sum_withBoost hsum)

theorem scaled_withBoost_le_scaled (hp : p ∈ ps) (hq : q ∈ ps) (hph : p.id ≠ home.id)
    (hqh : q.id ≠ home.id) (hfqp : f q ≤ f p)
    (hc : (store.peek home p).successes ≤ (store.peek home q).successes) :
    Vec.scaled ps (withBoost weight least home store f) q ≤
      Vec.scaled ps (withBoost weight least home store f) p := by
  rw [scaled_withBoost hf hp, scaled_withBoost hf hq, withBoost_of_ne hph,
    withBoost_of_ne hqh]
  exact div_le_div_of_nonneg_right (boost_le_boost hc hfqp)
    (one_pos.le.trans (one_le_sum_withBoost hsum))

end Peers

/-! ### The provider -/

/-- **The trust of an assessment with rarely called peers lifted**: a distribution again, in which
each of them has some trust. No one else gains, whoever had no less trust and no more calls than
another peer has no less trust than it now, and if there is no one to lift nothing changes. -/
structure Lifts (least : UInt64) (calls : Peer → UInt64) (a b : Assessment ℚ) : Prop where
  context_eq : b.context = a.context
  isDistribution : b.trust.IsDistribution
  pos : ∀ p y, (p, y) ∈ b.toList → p.id ≠ a.context.home.id → calls p < least → 0 < y
  le : ∀ p x y, (p, x) ∈ a.toList → (p, y) ∈ b.toList →
    p.id = a.context.home.id ∨ least ≤ calls p → y ≤ x
  mono : ∀ p q x x' y y', (p, x) ∈ a.toList → (q, x') ∈ a.toList →
    (p, y) ∈ b.toList → (q, y') ∈ b.toList →
    p.id ≠ a.context.home.id → q.id ≠ a.context.home.id → x' ≤ x → calls p ≤ calls q → y' ≤ y
  eq_of_none : ¬ (∃ p ∈ a.context.peers, p.id ≠ a.context.home.id ∧ calls p < least) →
    b.trust = a.trust

theorem lifts_boostedTrust {weight : UInt32} (hw : 0 < weight) (least : UInt64) {a : Assessment ℚ}
    (ha : a.trust.IsDistribution) (store : Experiences) :
    Lifts least (fun p => (store.peek a.context.home p).successes) a
      ⟨a.context, boostedTrust weight least a store, size_boostedTrust weight least a store⟩ := by
  obtain ⟨f, hf⟩ := a.exists_tabulate
  obtain ⟨hnonneg, hsum⟩ := Vec.isDistribution_tabulate.mp (hf ▸ ha)
  have hb := boostedTrust_tabulate weight least hf store
  refine ⟨rfl, isDistribution_boostedTrust weight least ha store, ?pos, ?le, ?mono, ?none⟩
  case pos =>
    intro p y hy hp hc
    obtain ⟨hmp, rfl⟩ := (Assessment.mem_toList_iff hb).mp hy
    exact scaled_withBoost_pos hnonneg hsum hw hmp hp hc
  case le =>
    intro p x y hx hy hp
    obtain ⟨hmp, rfl⟩ := (Assessment.mem_toList_iff hf).mp hx
    obtain ⟨-, rfl⟩ := (Assessment.mem_toList_iff hb).mp hy
    exact scaled_withBoost_le hnonneg hsum hmp hp
  case mono =>
    intro p q x x' y y' hx hx' hy hy' hp hq hxx hc
    obtain ⟨hmp, rfl⟩ := (Assessment.mem_toList_iff hf).mp hx
    obtain ⟨hmq, rfl⟩ := (Assessment.mem_toList_iff hf).mp hx'
    obtain ⟨-, rfl⟩ := (Assessment.mem_toList_iff hb).mp hy
    obtain ⟨-, rfl⟩ := (Assessment.mem_toList_iff hb).mp hy'
    exact scaled_withBoost_le_scaled hnonneg hsum hmp hmq hp hq hxx hc
  case none =>
    intro hnone
    have hself : ∀ p ∈ a.context.peers, withBoost weight least a.context.home store f p = f p := by
      intro p hp
      refine withBoost_eq_self (or_iff_not_imp_left.mpr fun hh => UInt64.not_lt.mp fun hc => ?_)
      exact hnone ⟨p, hp, hh, hc⟩
    calc boostedTrust weight least a store
        = (Vec.tabulate a.context.peers
            (withBoost weight least a.context.home store f)).normalize := by
          rw [hb, Vec.normalize_tabulate]
      _ = a.trust.normalize := by rw [Vec.tabulate_congr hself, ← hf]
      _ = a.trust := ha.normalize_eq

/-- **A boost lifts the rarely called peers** and no one else. -/
theorem boosted_lifts {σ : Type} {inner : Provider ℚ σ} {c : Context} {own own' : σ}
    {env env' : Environment ℚ} {a : Assessment ℚ} (h : inner c own env = (.ok a, own', env'))
    (ha : a.trust.IsDistribution) {weight : UInt32} {least : UInt64} (hw : 0 < weight)
    (hl : 0 < least) :
    ∃ b env'', boosted weight least inner c own env = (.ok b, own', env'') ∧
      Lifts least (fun p =>
        ((env'.experiences a.context.store).peek a.context.home p).successes) a b := by
  have hon : ¬ (weight = 0 ∨ least = 0) := by
    rintro (rfl | rfl)
    · exact absurd hw (by decide)
    · exact absurd hl (by decide)
  exact ⟨_, _, boosted_of_on h hon, lifts_boostedTrust hw least ha (env'.experiences _)⟩

/-- Five calls too few for one of two peers, and a weight above one hundred percent. -/
theorem boosted_lifts_trio :
    let a : Assessment ℚ := ⟨.trio .defaults, ⟨[1 / 2, 1 / 4, 1 / 4]⟩, rfl⟩
    let store := (Experiences.empty.put (.named "a") (.named "b") ⟨12, 0, .zero⟩).put
      (.named "a") (.named "m") ⟨5, 9, .zero⟩
    let env : Environment ℚ :=
      { experiences := fun _ => store, roster := .ofList [], clock := .fixed ⟨9⟩,
        draws := .ofList [], notices := [] }
    let inner : Provider ℚ Unit := fun _ own env => (.ok a, own, env)
    a.trust.IsDistribution ∧ (0 : UInt32) < 300 ∧ (0 : UInt64) < 10 ∧
      ∃ b env', boosted 300 10 inner a.context () env = (.ok b, (), env') ∧
        Lifts 10 (fun p => (store.peek (.named "a") p).successes) a b ∧
        b.trust.entries = [1 / 5, 1 / 10, 7 / 10] := by
  intro a store env inner
  have ha : a.trust.IsDistribution := ⟨by decide +kernel, by decide +kernel⟩
  have hw : (0 : UInt32) < 300 := by decide
  have hl : (0 : UInt64) < 10 := by decide
  have hinner : inner a.context () env = (.ok a, (), env) := rfl
  obtain ⟨b, env', hb, hlifts⟩ := boosted_lifts hinner ha hw hl
  have hentries : b.trust.entries = [1 / 5, 1 / 10, 7 / 10] := by
    have hvalue : (boosted 300 10 inner a.context () env).1.toOption.map (·.trust.entries) =
        some [1 / 5, 1 / 10, 7 / 10] := by decide +kernel
    rw [hb] at hvalue
    exact Option.some.inj hvalue
  exact ⟨ha, hw, hl, b, env', hb, hlifts, hentries⟩

end Provider

end Reputation
