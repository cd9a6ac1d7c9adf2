import Reputation.Proofs.EigenTrust.Engine

/-! # Counts that overflow

The weighing of feedback counts the calls of each peer with each third one. If one of these counts
leaves its 64 bits, the whole computation stops with this fault, which is the only one it knows:
`Feedback.update_eq_error`, `Engine.compute_eq_error`. -/

namespace Reputation

open Number

namespace Feedback

variable {K : Type} [Number K]

/-! ### One pair of observers -/

theorem only_contribute (x : K × ℕ) (ef : Experience × Experience) :
    Only .counterOverflow (contribute .similarity x ef) := by
  obtain ⟨e, f⟩ := ef
  obtain ⟨total, count⟩ := x
  unfold contribute
  refine (Experience.only_isUsed e).bind fun used he => ?_
  cases used with
  | false => exact Or.inl ⟨_, rfl⟩
  | true =>
    refine (Experience.only_isUsed f).bind fun used hf => ?_
    cases used with
    | false => exact Or.inl ⟨_, rfl⟩
    | true =>
      have hs : (Scoring.similarity : Scoring K).credibility e f =
          .ok (Scoring.contrast (ofNat e.successes.toNat) (ofNat f.successes.toNat)) := by
        unfold Scoring.similarity
        simp only [he, hf]
        rfl
      simp only [hs]
      exact Or.inl ⟨_, rfl⟩

theorem contribute_eq_error {ef : Experience × Experience} (h : ¬ ef.1.Fits) (x : K × ℕ) :
    contribute .similarity x ef = .error .counterOverflow := by
  obtain ⟨e, f⟩ := ef
  obtain ⟨total, count⟩ := x
  unfold contribute
  simp only [Experience.isUsed_of_not_fits h]
  rfl

theorem only_mean (es : List (Experience × Experience)) :
    Only .counterOverflow (mean (K := K) .similarity es) :=
  (Only.foldlM (fun x ef _ => only_contribute x ef) _).bind fun _ _ => Or.inl ⟨_, rfl⟩

theorem mean_eq_error {es : List (Experience × Experience)} (h : ∃ ef ∈ es, ¬ ef.1.Fits) :
    mean (K := K) .similarity es = .error .counterOverflow := by
  obtain ⟨ef, hef, hf⟩ := h
  unfold mean
  rw [foldlM_eq_error (fun x ef _ => only_contribute x ef) ⟨ef, hef, contribute_eq_error hf⟩]
  rfl

theorem only_judge (store : Experiences) (ps : List Peer) (p q : Peer) :
    Only .counterOverflow (judge (K := K) .similarity store ps p q) := by
  unfold judge
  split
  · exact Or.inl ⟨_, rfl⟩
  · exact only_mean _

/-- A first observer whose calls with a third peer overflow is not compared with anyone. -/
theorem judge_eq_error {store : Experiences} {ps : List Peer} {p q r : Peer} (hr : r ∈ ps)
    (hpq : p.id ≠ q.id) (hrp : r.id ≠ p.id) (hrq : r.id ≠ q.id) (hf : ¬ (store.peek p r).Fits) :
    judge (K := K) .similarity store ps p q = .error .counterOverflow := by
  have hqp : ¬ q.same p = true := fun h => hpq (Peer.same_iff.mp h).symm
  have hw : (store.peek p r, store.peek q r) ∈ witnesses store ps p q :=
    List.mem_map_of_mem (List.mem_filter.mpr ⟨hr, by simp [Peer.same, hrp, hrq]⟩)
  unfold judge
  rw [if_neg hqp]
  exact mean_eq_error ⟨_, hw, hf⟩

/-! ### All pairs -/

theorem only_mapM_judge (store : Experiences) (ps : List Peer) (p : Peer) :
    Only .counterOverflow (ps.mapM (judge (K := K) .similarity store ps p)) :=
  Only.mapM fun q _ => only_judge store ps p q

theorem only_enter (c : Context) (store : Experiences) (table : ScoreTable K) (p : Peer) :
    Only (.fault .counterOverflow) (enter .similarity c store table p) := by
  unfold enter
  rcases only_mapM_judge (K := K) store c.peers p with ⟨xs, hx⟩ | hx
  · have hs : c.peers.length = (Vec.mk xs).size := (length_of_mapM_eq_ok hx).symm
    rw [hx]
    change Only _ (liftM (table.setVector p c.peers ⟨xs⟩) : Except Failure _)
    unfold ScoreTable.setVector
    rw [if_pos hs]
    exact Or.inl ⟨_, rfl⟩
  · rw [hx]
    exact Or.inr rfl

/-- **Credibility is not computed at all** if a count of calls with a third peer overflows. -/
theorem update_eq_error {c : Context} {store : Experiences} (hs : ¬ store.Countable c.peers)
    (table : ScoreTable K) :
    update .similarity c table store = .error (.fault .counterOverflow) := by
  unfold Experiences.Countable at hs
  push Not at hs
  obtain ⟨p, hp, q, hq, r, hr, hpq, hrp, hrq, hf⟩ := hs
  have hm : c.peers.mapM (judge (K := K) .similarity store c.peers p) = .error .counterOverflow :=
    mapM_eq_error (fun q _ => only_judge store c.peers p q)
      ⟨q, hq, judge_eq_error hr hpq hrp hrq hf⟩
  rw [update_eq]
  refine foldlM_eq_error (fun t p _ => only_enter c store t p) ⟨p, hp, fun t => ?_⟩ _
  unfold enter
  rw [hm]
  rfl

end Feedback

namespace Engine

variable {K : Type} [Number K]

/-- **An overflow stops the whole computation.** -/
theorem compute_eq_error (c : Context) (o : Opinions K) {store : Experiences}
    (hs : ¬ store.Countable c.peers) :
    (ofAlgorithm .eigenTrustPlusPlus).compute c o store = .error (.fault .counterOverflow) := by
  obtain ⟨trust, store', h, hp, -, -⟩ := LocalTrust.updates_spec
    (ofAlgorithm .eigenTrustPlusPlus : Engine K).scoring c c.peers o.trust.clear store
  have hs' : ¬ store'.Countable c.peers := by rwa [Experiences.countable_congr hp]
  have hg : (ofAlgorithm .eigenTrustPlusPlus).refresh c o store =
      .error (.fault .counterOverflow) := by
    rw [refresh_eq, gather_eq _ h]
    change (Feedback.update .similarity c o.credibility store').map _ = _
    rw [Feedback.update_eq_error hs']
    rfl
  unfold compute
  rw [hg]
  rfl

end Engine

end Reputation
