import Reputation.Proofs.EigenTrust.Engine

/-! # Credibility told peer by peer

Feedback is computed from a copy of the experiences between the peers of a context, which is read by
position. `Feedback.retell` asks the store itself instead, for each peer whom two others have both
called, and takes the average of what such a peer contributes to their credibility. Both add up the
same numbers in the same order (`Feedback.credibility_eq_average`), so they agree in any arithmetic:
`Feedback.retell_eq`.

A table of credibility can therefore be told from the store that it was computed from, which is as it
was before: `Engine.updateFeedback_retells`. -/

namespace Reputation

open Number

namespace Feedback

variable {K : Type} [Number K]

/-- The peers of a list whom two others have both called, in order. -/
def common (store : Experiences) (ps : List Peer) (p q : Peer) : List Peer :=
  ps.filter fun r => !r.same p && !r.same q && (store.peek p r).used && (store.peek q r).used

/-- **The credibility of a peer with another one, told peer by peer**: the average of what those whom
both have called contribute to it. -/
def retell (s : Scoring K) (store : Experiences) (ps : List Peer) (p q : Peer) : Except Fault K := do
  let xs ← (common store ps p q).mapM fun r => s.credibilityOf p q r store
  .ok (average xs)

/-- How far the successes of two peers with a third one differ. -/
def difference (store : Experiences) (p q r : Peer) : K :=
  Scoring.contrast (ofNat (store.peek p r).successes.toNat) (ofNat (store.peek q r).successes.toNat)

section Common
variable {store : Experiences} {ps : List Peer} {p q : Peer}

theorem mem_common {r : Peer} : r ∈ common store ps p q ↔
    r ∈ ps ∧ r.id ≠ p.id ∧ r.id ≠ q.id ∧
      (store.peek p r).used = true ∧ (store.peek q r).used = true := by
  unfold common
  simp only [List.mem_filter, Bool.and_eq_true, Bool.not_eq_true', Bool.eq_false_iff, ne_eq,
    Peer.same_iff, and_assoc]

theorem contrasts_witnesses (store : Experiences) (ps : List Peer) (p q : Peer) :
    contrasts (K := K) (witnesses store ps p q) =
      (common store ps p q).map (difference store p q) := by
  unfold contrasts witnesses common
  rw [List.filter_map, List.filter_filter, List.map_map]
  refine congrArg (List.map _) (List.filter_congr fun r _ => ?_)
  simp only [Function.comp_apply]
  rw [Bool.and_comm, ← Bool.and_assoc]

/-- **The credibility of two peers** is how far they differ on average about the common ones. -/
theorem credibility_eq_average (hpq : p.id ≠ q.id) : credibility (K := K) store ps p q =
    average ((common store ps p q).map (difference store p q)) := by
  have hother : ¬ q.same p = true := fun h => hpq (Peer.same_iff.mp h).symm
  unfold credibility
  rw [if_neg hother, agreement_eq, contrasts_witnesses]

theorem credibilityOf_common (hs : store.Countable ps) (hp : p ∈ ps) (hq : q ∈ ps)
    (hpq : p.id ≠ q.id) {r : Peer} (hr : r ∈ common store ps p q) :
    (Scoring.similarity (K := K)).credibilityOf p q r store = .ok (difference store p q r) := by
  obtain ⟨hr, hrp, hrq, hpr, hqr⟩ := mem_common.mp hr
  have hpf : (store.peek p r).isUsed = .ok true := by
    rw [Experience.isUsed_of_fits (hs p hp q hq r hr hpq hrp hrq), hpr]
  have hqf : (store.peek q r).isUsed = .ok true := by
    rw [Experience.isUsed_of_fits (hs q hq p hp r hr (Ne.symm hpq) hrq hrp), hqr]
  simp only [Scoring.credibilityOf, Scoring.similarity, hpf, hqf]
  rfl

/-- **Peer by peer, the same credibility is told.** -/
theorem retell_eq (hs : store.Countable ps) (hp : p ∈ ps) (hq : q ∈ ps) (hpq : p.id ≠ q.id) :
    retell (K := K) .similarity store ps p q = .ok (credibility store ps p q) := by
  unfold retell
  rw [credibility_eq_average hpq,
    mapM_eq_ok fun r hr => credibilityOf_common hs hp hq hpq hr]
  rfl

end Common

end Feedback

namespace Engine

variable {K : Type} [Number K]

/-- **Credibility can be told peer by peer** from the store that it was computed from. What computes
it after local trust leaves the store as local trust left it. -/
theorem updateFeedback_retells (c : Context) (o : Opinions K) (store : Experiences)
    (hs : store.Countable c.peers) :
    (∃ o', (eigenTrustPlusPlus : Engine K).updateFeedback c o store = .ok o' ∧
      ∀ p ∈ c.peers, ∀ q ∈ c.peers, p.id ≠ q.id →
        Feedback.retell (eigenTrustPlusPlus : Engine K).scoring store c.peers p q =
          .ok (o'.credibility.score p q)) ∧
      ∀ trust store',
        LocalTrust.updateAll (eigenTrustPlusPlus : Engine K).scoring c o.trust store =
            .ok (trust, store') →
          ∃ o', (eigenTrustPlusPlus : Engine K).refresh c o store = .ok (o', store') := by
  constructor
  · obtain ⟨o', ho, hscore⟩ := updateFeedback_spec hs o
    refine ⟨o', ho, fun p hp q hq hpq => ?_⟩
    rw [hscore p hp q hq]
    exact Feedback.retell_eq hs hp hq hpq
  · intro trust store' h
    obtain ⟨table, store₁, hfold, hpeek, -⟩ := LocalTrust.updates_spec
      (eigenTrustPlusPlus : Engine K).scoring c c.peers o.trust.clear store
    have hstore : store'.peek = store.peek := by
      cases h.symm.trans hfold
      exact hpeek
    obtain ⟨o', ho, -⟩ := updateFeedback_spec
      ((Experiences.countable_congr hstore c.peers).mpr hs) { o with trust }
    refine ⟨o', ?_⟩
    unfold refresh
    rw [h]
    change (updateFeedback _ c { o with trust } store' >>= _) = _
    rw [ho]
    rfl

/-- Two peers who have both called a third one, with two successes and with one. -/
theorem updateFeedback_retells_trio :
    let c := Context.trio .defaults
    let store := (Experiences.empty.put (.named "a") (.named "m") ⟨2, 7, .zero⟩).put
      (.named "b") (.named "m") ⟨1, 0, .zero⟩
    store.Countable c.peers ∧
      ∃ o' : Opinions Float, eigenTrustPlusPlus.updateFeedback c .empty store = .ok o' ∧
        Feedback.retell .similarity store c.peers (.named "a") (.named "b") =
          .ok (o'.credibility.score (.named "a") (.named "b")) ∧
        o'.credibility.score (.named "a") (.named "b") = 1 / 3 := by
  intro c store
  have hs : store.Countable c.peers := Experiences.countable_of_fits (Experiences.fits_put
    (Experiences.fits_put Experiences.fits_empty (by decide) _ _) (by decide) _ _) _
  obtain ⟨⟨o', ho, hretell⟩, -⟩ := updateFeedback_retells (K := Float) c .empty store hs
  have hab := hretell (.named "a") (by decide) (.named "b") (by decide) (by decide)
  have hvalue : Feedback.retell (K := Float) .similarity store c.peers (.named "a") (.named "b") =
      .ok (1 / 3) := by decide +kernel
  exact ⟨hs, o', ho, hab, Except.ok.inj (hab.symm.trans hvalue)⟩

end Engine

end Reputation
