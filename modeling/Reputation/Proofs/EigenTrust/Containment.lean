import Mathlib.Data.Set.Operations
import Mathlib.Tactic.Ring
import Reputation.Proofs.Context
import Reputation.Proofs.EigenTrust.Overflow
import Reputation.Proofs.Linear.Distribution

/-! # Containment of untrusted peers

A set of peers is a `Haven` of a context if all of the pre-trusted peers are in it and no one in it
scores a peer outside above zero. Then no cell of the matrix leads out of the haven
(`regard_eq_zero`), so a step gives nothing to the outside as long as nothing is there
(`trail_eq_zero`), whatever the peers outside report and whatever the parameters are. -/

namespace Reputation

open Number

/-- **Does an experience earn no trust?** -/
def Algorithm.Withholds : Algorithm → Experience → Prop
  | .eigenTrust, e => e.successes ≤ e.failures
  | .eigenTrustPlusPlus, e => e.successes = 0

instance (a : Algorithm) (e : Experience) : Decidable (a.Withholds e) := by
  cases a <;> unfold Algorithm.Withholds <;> infer_instance

theorem Engine.scoring_eq_zero_iff (a : Algorithm) (e : Experience) :
    (ofAlgorithm a).scoring.trust e = (0 : ℚ) ↔ a.Withholds e := by
  cases a with
  | eigenTrust =>
    change ((e.successes.toNat - e.failures.toNat : ℕ) : ℚ) = 0 ↔ e.successes ≤ e.failures
    rw [Nat.cast_eq_zero, Nat.sub_eq_zero_iff_le, UInt64.le_iff_toNat_le]
  | eigenTrustPlusPlus =>
    change ((e.successes.toNat : ℕ) : ℚ) = 0 ↔ e.successes = 0
    rw [Nat.cast_eq_zero, ← UInt64.toNat_inj]
    rfl

/-- **A haven**: it has all pre-trusted peers of the context, of whom there is one, and no peer in
it has trust for one outside. -/
structure Context.Haven (c : Context) (a : Algorithm) (store : Experiences) (S : Set Peer) :
    Prop where
  exists_preTrusted : ∃ p ∈ c.peers, c.preTrusted.contains p = true
  preTrusted_mem : ∀ p ∈ c.peers, c.preTrusted.contains p = true → p ∈ S
  closed : ∀ p ∈ c.peers, p ∈ S → ∀ q ∈ c.peers, q ∉ S → a.Withholds (store.peek p q)

/-! ### Zeros that stay -/

theorem Feedback.weighted_eq_zero (p : Peer) {f : Peer → ℚ} (g : Peer → ℚ) {q : Peer}
    (h : f q = 0) : weighted p f g q = 0 := by
  unfold weighted
  rw [h, zero_mul]

theorem Feedback.discounted_eq_zero (ps : List Peer) (p : Peer) {f : Peer → ℚ} (g : Peer → ℚ)
    {q : Peer} (h : f q = 0) : discounted ps p f g q = 0 := by
  unfold discounted
  split
  · exact h
  · exact Vec.scaled_eq_zero ps (weighted_eq_zero p g h)

/-! ### The outside -/

section Haven
variable {a : Algorithm} {c : Context} {store : Experiences} {S : Set Peer}
  (hS : c.Haven a store S) {q : Peer} (hq : q ∈ c.peers) (hqS : q ∉ S)
include hS hq hqS

theorem PreTrusted.share_eq_zero : c.preTrusted.share c.peers q = (0 : ℚ) := by
  have hqt : ¬ c.preTrusted.contains q = true := fun h => hqS (hS.preTrusted_mem q hq h)
  rw [share_of_exists hS.exists_preTrusted, if_neg hqt]
  rfl

theorem LocalTrust.opinion_eq_zero {p : Peer} (hp : p ∈ c.peers) (hpS : p ∈ S) :
    opinion (Engine.ofAlgorithm a).scoring store c p q = (0 : ℚ) := by
  have hqp : ¬ q.same p = true := by
    intro h
    have he : q = p := Peer.Distinct.eq_of_id_eq c.nodup hq hp (Peer.same_iff.mp h)
    exact hqS (he ▸ hpS)
  have hx : (Engine.ofAlgorithm a).scoring.trust (store.peek p q) = (0 : ℚ) :=
    (Engine.scoring_eq_zero_iff a _).mpr (hS.closed p hp hpS q hq hqS)
  unfold opinion
  simp only [if_neg hqp, hx, PreTrusted.share_eq_zero hS hq hqS, ite_self]

namespace Engine

/-- **No cell of the matrix leads out of a haven.** -/
theorem regard_eq_zero {p : Peer} (hp : p ∈ c.peers) (hpS : p ∈ S) :
    (ofAlgorithm a).regard store c p q = (0 : ℚ) := by
  have hf := Vec.scaled_eq_zero c.peers (LocalTrust.opinion_eq_zero hS hq hqS hp hpS)
  unfold regard
  split
  · exact Feedback.discounted_eq_zero _ _ _ hf
  · exact hf

/-- **No step leads out of a haven.** -/
theorem trail_eq_zero (k : ℕ) : (ofAlgorithm a).trail store c k q = (0 : ℚ) := by
  induction k generalizing q with
  | zero => exact PreTrusted.share_eq_zero hS hq hqS
  | succ k ih =>
    -- a peer in the haven passes nothing on to the outside, and one outside has nothing to pass on
    have hi : ∀ p ∈ c.peers, (ofAlgorithm a).trail store c k p = (0 : ℚ) ∨
        (ofAlgorithm a).regard store c p q = (0 : ℚ) := by
      intro p hp
      by_cases hpS : p ∈ S
      · exact Or.inr (regard_eq_zero hS hq hqS hp hpS)
      · exact Or.inl (ih hp hpS)
    rw [trail_succ]
    unfold PowerIteration.blend
    rw [Matrix.inflow_eq_zero hi, PreTrusted.share_eq_zero hS hq hqS]
    ring

end Engine

end Haven

/-! ### The computation -/

namespace Engine

/-- **Peers outside of a haven get no trust**, whatever they report about each other or about the
haven, and for all parameters. The computation gives an answer unless feedback is weighed and the
calls of a peer with a third one overflow; then it stops without an answer. -/
theorem compute_contains (a : Algorithm) (c : Context) (o : Opinions ℚ) (store : Experiences)
    (S : Set Peer) (hS : c.Haven a store S) :
    ((a = .eigenTrustPlusPlus → store.Countable c.peers) →
      ∃ r notices o' store', (ofAlgorithm a).compute c o store = .ok ((r, notices), o', store') ∧
        r.toList.map Prod.fst = c.peers ∧ ∀ q x, (q, x) ∈ r.toList → q ∉ S → x = 0) ∧
    (a = .eigenTrustPlusPlus → ¬ store.Countable c.peers →
      (ofAlgorithm a).compute c o store = .error (.fault .counterOverflow)) := by
  constructor
  · intro hs
    obtain ⟨r, notices, o', store', hr, hc, -, k, ht⟩ := compute_spec a c o store hs
    subst hc
    have hl := Assessment.toList_eq ht
    refine ⟨r, notices, o', store', hr, ?_, fun q x hqx hqS => ?_⟩
    · rw [hl, List.map_map]
      exact List.map_id _
    · rw [hl] at hqx
      obtain ⟨p, hp, hpq⟩ := List.mem_map.mp hqx
      cases hpq
      exact Vec.scaled_eq_zero _ (trail_eq_zero hS hp hqS k)
  · rintro rfl hs
    exact compute_eq_error c o hs

theorem haven_trio (a : Algorithm) (params : Params) {store : Experiences}
    (h : ∀ p : Peer, p.id ≠ "m" → a.Withholds (store.peek p (.named "m"))) :
    (Context.trio params).Haven a store {p | p.id ≠ "m"} where
  exists_preTrusted := by
    have ha : (PreTrusted.ofList [.named "a"]).contains (.named "a") = true := by decide
    exact ⟨.named "a", List.mem_cons_self, ha⟩
  preTrusted_mem := by
    have hi : ∀ p ∈ [Peer.named "a", .named "b", .named "m"],
        (PreTrusted.ofList [.named "a"]).contains p = true → p.id ≠ "m" := by decide
    exact hi
  closed := by
    intro p _ hpS q _ hqS
    have hq : q.id = (Peer.named "m").id := not_not.mp hqS
    rw [store.peek_congr rfl hq]
    exact h p hpS

/-- A peer who praises the others, and whom no one praises. -/
theorem compute_contains_trio :
    let store := ((Experiences.empty.put (.named "m") (.named "a") ⟨50, 0, .zero⟩).put
      (.named "m") (.named "b") ⟨50, 0, .zero⟩).put (.named "a") (.named "b") ⟨3, 1, .zero⟩
    (Context.trio .defaults).Haven .eigenTrustPlusPlus store {p | p.id ≠ "m"} ∧
      store.Countable (Context.trio .defaults).peers ∧
      ∃ (r : Assessment ℚ) (notices : List Notice) (o' : Opinions ℚ) (store' : Experiences),
        (ofAlgorithm .eigenTrustPlusPlus).compute (.trio .defaults) .empty store =
          .ok ((r, notices), o', store') ∧
        ∀ q x, (q, x) ∈ r.toList → q.id = "m" → x = 0 := by
  intro store
  have hS : (Context.trio .defaults).Haven .eigenTrustPlusPlus store {p | p.id ≠ "m"} := by
    refine haven_trio _ _ fun p hp => ?_
    simp only [store, Experiences.peek_put, Experiences.peek_empty]
    simp only [show ¬ (Peer.named "a").id = (Peer.named "m").id by decide,
      show ¬ (Peer.named "b").id = (Peer.named "m").id by decide, and_false, if_false]
    decide
  have hs : store.Countable (Context.trio .defaults).peers := Experiences.countable_of_fits
    (Experiences.fits_put (Experiences.fits_put (Experiences.fits_put Experiences.fits_empty
      (by decide) _ _) (by decide) _ _) (by decide) _ _) _
  obtain ⟨r, notices, o', store', hr, -, hx⟩ :=
    (compute_contains .eigenTrustPlusPlus _ .empty store _ hS).1 fun _ => hs
  exact ⟨hS, hs, r, notices, o', store', hr, fun q x hqx hq => hx q x hqx fun h => h hq⟩

/-- A haven in which one peer has made too many calls: nobody gets any trust at all. -/
theorem compute_overflows_trio :
    let params := Params.ofList [("MAX_ITERATIONS", "0")]
    let store := Experiences.empty.put (.named "a") (.named "b") ⟨18446744073709551615, 1, .zero⟩
    (Context.trio params).Haven .eigenTrustPlusPlus store {p | p.id ≠ "m"} ∧
      (ofAlgorithm .eigenTrustPlusPlus : Engine ℚ).compute (.trio params) .empty store =
        .error (.fault .counterOverflow) := by
  intro params store
  have hS : (Context.trio params).Haven .eigenTrustPlusPlus store {p | p.id ≠ "m"} := by
    refine haven_trio _ _ fun p hp => ?_
    simp only [store, Experiences.peek_put, Experiences.peek_empty]
    simp only [show ¬ (Peer.named "b").id = (Peer.named "m").id by decide, and_false, if_false]
    decide
  refine ⟨hS, compute_eq_error _ _ fun hs => ?_⟩
  have hf := hs (.named "a") (by decide) (.named "m") (by decide) (.named "b") (by decide)
    (by decide) (by decide) (by decide)
  rw [Experiences.peek_put] at hf
  exact absurd hf (by decide)

end Engine

end Reputation
