import Reputation.Proofs.Context
import Reputation.Proofs.EigenTrust.Engine
import Reputation.Proofs.Number.Exact

/-! # Computations start anew

An engine keeps its scores from one computation to the next. A computation empties the tables and
writes the rows of all peers of its context again: afterwards they are `Renewed`, whatever they held
before. Whether a count overflows on the way (`Engine.hurdle`) is a matter of the experiences alone.
So earlier computations, updates and writes have no part in the answer: `compute_anew`. -/

namespace Reputation

open Number

variable {K : Type} [Number K]

/-! ### Local trust -/

namespace LocalTrust

theorem updates_eq (s : Scoring K) (c : Context) (order : List Peer) (table : ScoreTable K)
    (store : Experiences) :
    order.foldlM (fun (x : ScoreTable K × Experiences) p => update s p c x.1 x.2) (table, store) =
      .ok (order.foldl (fun t p => (t.setWeight p (weight s store p c.peers)).setRow p c.peers
        (opinion s store c p)) table, order.foldl (fun store p => consult store p c.peers) store) := by
  induction order generalizing table store with
  | nil => rfl
  | cons o order ih =>
    have hp := peek_consult store o c.peers
    have hw : ∀ p, weight s (consult store o c.peers) p c.peers = weight s store p c.peers := by
      intro p; unfold weight; rw [hp]
    rw [List.foldlM_cons, update_eq]
    refine (ih _ _).trans ?_
    simp only [hw, opinion_store_congr s hp]
    rfl

omit [Number K] in
theorem mem_weights_foldl (ps : List Peer) (w : Peer → K) (f : Peer → Peer → K) (order : List Peer)
    (table : ScoreTable K) (id : String) :
    id ∈ (order.foldl (fun t p => (t.setWeight p (w p)).setRow p ps (f p)) table).weights ↔
      id ∈ order.map Peer.id ∨ id ∈ table.weights := by
  induction order generalizing table with
  | nil => simp
  | cons o order ih =>
    rw [List.foldl_cons, ih, ScoreTable.weights_setRow, ScoreTable.mem_weights_setWeight,
      List.map_cons, List.mem_cons]
    tauto

/-- **All that a table holds** after the rows of all peers were written into it emptied. -/
theorem updateAll_spec (s : Scoring K) (c : Context) (table : ScoreTable K) (store : Experiences) :
    ∃ table' store', updateAll s c table store = .ok (table', store') ∧
      store'.peek = store.peek ∧
      (∀ p ∈ c.peers, ∀ q ∈ c.peers, table'.score p q = opinion s store c p q) ∧
      table'.Covers c.peers ∧ ∀ id, id ∈ table'.weights ↔ id ∈ c.peers.map Peer.id := by
  obtain ⟨table', store', h, hp, hm, -⟩ := updates_spec s c c.peers table.clear store
  obtain ⟨rfl, -⟩ := Prod.mk.inj (Except.ok.inj (h.symm.trans (updates_eq s c _ _ _)))
  refine ⟨_, store', h, hp, fun p hp => hm p (List.mem_map_of_mem hp), ?covers, fun id => ?weights⟩
  case covers =>
    exact ScoreTable.covers_foldl c.nodup
      (fun t p k => ScoreTable.mem_scores_setRow (t.setWeight p _) p _ _ k) table
  case weights =>
    rw [mem_weights_foldl, or_iff_left (table.not_mem_weights_clear id)]

end LocalTrust

/-! ### Credibility -/

namespace Feedback

/-- What the judgement of a peer about another one comes to, if no count overflows. -/
def verdict (s : Scoring K) (store : Experiences) (ps : List Peer) (p q : Peer) : K :=
  (judge s store ps p q).toOption.getD zero

/-- The judgements of all peers of a list about all of them. -/
def verdicts (s : Scoring K) (store : Experiences) (ps : List Peer) : Except Fault (List (List K)) :=
  ps.mapM fun p => ps.mapM (judge s store ps p)

theorem judge_store_congr (s : Scoring K) {store store' : Experiences}
    (h : store'.peek = store.peek) : judge s store' = judge s store := by
  funext ps p q
  unfold judge witnesses; rw [h]

theorem enter_eq (s : Scoring K) (c : Context) (store : Experiences) (table : ScoreTable K)
    (p : Peer) :
    enter s c store table p =
      ((c.peers.mapM (judge s store c.peers p)).map fun _ =>
        table.setRow p c.peers (verdict s store c.peers p)).mapError .fault := by
  unfold enter
  cases hm : c.peers.mapM (judge s store c.peers p) with
  | error e => rfl
  | ok xs =>
    have hxs : xs = c.peers.map (verdict s store c.peers p) := eq_map_of_mapM_eq_ok zero hm
    subst hxs
    change (liftM (table.setVector p c.peers (Vec.tabulate c.peers _)) : Except Failure _) = _
    rw [ScoreTable.setVector_tabulate]
    rfl

theorem update_eq_verdicts (s : Scoring K) (c : Context) (table : ScoreTable K)
    (store : Experiences) :
    update s c table store = ((verdicts s store c.peers).map fun _ =>
      c.peers.foldl (fun t p => t.setRow p c.peers (verdict s store c.peers p)) table.clear).mapError
        .fault := by
  rw [update_eq]
  exact foldlM_eq_mapM (enter_eq s c store) c.peers table.clear

end Feedback

namespace Engine

/-! ### The tables -/

/-- **Renewed tables**: the opinions of all peers of the context about all of them, with the weight
of each, and what they make of each other's feedback if that is weighed. There is nothing else. -/
structure Renewed (e : Engine K) (c : Context) (store : Experiences) (o : Opinions K) : Prop where
  trust_score : ∀ p ∈ c.peers, ∀ q ∈ c.peers,
    o.trust.score p q = LocalTrust.opinion e.scoring store c p q
  trust_covers : o.trust.Covers c.peers
  mem_weights : ∀ id, id ∈ o.trust.weights ↔ id ∈ c.peers.map Peer.id
  credibility_score : e.weighsFeedback → ∀ p ∈ c.peers, ∀ q ∈ c.peers,
    o.credibility.score p q = Feedback.verdict e.scoring store c.peers p q
  credibility_covers : e.weighsFeedback → o.credibility.Covers c.peers

/-- What may stop a computation on its way: a count of calls, where feedback is weighed. -/
def hurdle (e : Engine K) (c : Context) (store : Experiences) : Except Failure Unit :=
  if e.weighsFeedback then
    ((Feedback.verdicts e.scoring store c.peers).map fun _ => ()).mapError .fault
  else .ok ()

section Congr
variable {e : Engine K} {c : Context} {store store' : Experiences} (hs : store'.peek = store.peek)
include hs

theorem hurdle_congr : e.hurdle c store' = e.hurdle c store := by
  unfold hurdle Feedback.verdicts
  rw [Feedback.judge_store_congr e.scoring hs]

theorem Renewed.congr {o : Opinions K} (h : e.Renewed c store' o) : e.Renewed c store o := by
  refine ⟨?_, h.trust_covers, h.mem_weights, ?_, h.credibility_covers⟩
  · rw [← LocalTrust.opinion_store_congr e.scoring hs]
    exact h.trust_score
  · unfold Feedback.verdict
    rw [← Feedback.judge_store_congr e.scoring hs]
    exact h.credibility_score

end Congr

theorem refresh_eq_hurdle (e : Engine K) (c : Context) (o : Opinions K) (store : Experiences) :
    ∃ o' store', e.Renewed c store o' ∧ store'.peek = store.peek ∧
      e.refresh c o store = (e.hurdle c store).map fun _ => (o', store') := by
  obtain ⟨trust, store', h, hp, hm, hc, hw⟩ := LocalTrust.updateAll_spec e.scoring c o.trust store
  unfold refresh hurdle
  rw [h]
  split_ifs with hf
  · let credibility := c.peers.foldl (fun t p => t.setRow p c.peers
      (Feedback.verdict e.scoring store' c.peers p)) o.credibility.clear
    have hr : e.Renewed c store' ⟨trust, credibility⟩ := by
      refine ⟨?_, hc, hw, fun _ p hp q hq => ?_, fun _ => ?_⟩
      · rw [LocalTrust.opinion_store_congr e.scoring hp]
        exact hm
      · exact ScoreTable.score_setRows _ _ c.nodup c.nodup hp hq
      · exact ScoreTable.covers_foldl c.nodup
          (fun t p k => ScoreTable.mem_scores_setRow t p _ _ k) o.credibility
    refine ⟨⟨trust, credibility⟩, store', hr.congr hp, hp, ?_⟩
    change (e.updateFeedback c ⟨trust, o.credibility⟩ store' >>= _) = _
    unfold updateFeedback Feedback.verdicts
    rw [Feedback.update_eq_verdicts, ← Feedback.judge_store_congr e.scoring hp]
    unfold Feedback.verdicts
    cases c.peers.mapM fun p => c.peers.mapM (Feedback.judge e.scoring store' c.peers p) <;> rfl
  · exact ⟨⟨trust, o.credibility⟩, store', ⟨hm, hc, hw, fun h => absurd h hf,
      fun h => absurd h hf⟩, hp, rfl⟩

/-- **Renewed tables give one matrix.** -/
theorem Renewed.matrix_eq {e : Engine K} {c : Context} {store : Experiences} {o o' : Opinions K}
    (h : e.Renewed c store o) (h' : e.Renewed c store o') :
    e.matrix o c.peers = e.matrix o' c.peers := by
  have ht : o.trust.matrix c.peers = o'.trust.matrix c.peers := ScoreTable.matrix_congr
    fun p hp q hq => (h.trust_score p hp q hq).trans (h'.trust_score p hp q hq).symm
  have hl : LocalTrust.matrix o.trust c.peers = LocalTrust.matrix o'.trust c.peers := by
    unfold LocalTrust.matrix; rw [ht]
  unfold matrix
  split_ifs with hw
  · have hc : o.credibility.matrix c.peers = o'.credibility.matrix c.peers :=
      ScoreTable.matrix_congr fun p hp q hq =>
        (h.credibility_score hw p hp q hq).trans (h'.credibility_score hw p hp q hq).symm
    unfold Feedback.matrix
    rw [hl, hc]
  · exact hl

/-! ### The computation -/

/-- What a computation answers: the hurdle first, then what the matrix of the renewed tables leads
to. -/
theorem map_compute_eq {e : Engine K} {c : Context} {o' : Opinions K} {store : Experiences}
    (h : e.Renewed c store o') (o : Opinions K) :
    (e.compute c o store).map Prod.fst = e.hurdle c store >>= fun _ =>
      (liftM (e.matrix o' c.peers >>= assess c) : Except Failure _) := by
  obtain ⟨o₁, store₁, h₁, -, hr⟩ := refresh_eq_hurdle e c o store
  unfold compute
  rw [hr]
  cases e.hurdle c store with
  | error _ => rfl
  | ok _ =>
    change (liftM (e.matrix o₁ c.peers) >>= _ : Except Failure _).map Prod.fst = _
    rw [h₁.matrix_eq h]
    change _ = liftM (e.matrix o' c.peers >>= assess c)
    cases e.matrix o' c.peers with
    | error _ => rfl
    | ok m =>
      change (liftM (assess c m) >>= _ : Except Failure _).map Prod.fst = liftM (assess c m)
      cases assess c m <;> rfl

/-- The scores that are kept are those that the matrix was read from. -/
theorem refresh_eq_of_compute_eq {e : Engine K} {c : Context} {o o' : Opinions K}
    {store store' : Experiences} {answer : Assessment K × List Notice}
    (h : e.compute c o store = .ok (answer, o', store')) : e.refresh c o store = .ok (o', store') := by
  obtain ⟨⟨o₁, store₁⟩, hr, h⟩ := bind_eq_ok h
  obtain ⟨m, -, h⟩ := bind_eq_ok h
  obtain ⟨a, -, h⟩ := bind_eq_ok h
  cases h
  exact hr

/-- An engine that does not weigh feedback always answers, however it scores. -/
theorem exists_compute_eq {e : Engine K} (he : e.weighsFeedback = false) (c : Context)
    (o : Opinions K) (store : Experiences) : ∃ r, e.compute c o store = .ok r := by
  obtain ⟨o', store', hr, -, hrefresh⟩ := refresh_eq_hurdle e c o store
  have hh : e.hurdle c store = .ok () := by
    unfold hurdle
    simp [he]
  obtain ⟨m, hm, ht⟩ := LocalTrust.matrix_spec hr.trust_score
  have hm' : e.matrix o' c.peers = .ok m := by
    unfold matrix
    simpa [he] using hm
  obtain ⟨r, notices, ha, -, -⟩ := assess_eq c m ht.rows_eq ht.cols_eq
  refine ⟨((r, notices), o', store'), ?_⟩
  unfold compute
  rw [hrefresh, hh]
  change (liftM (matrix e o' c.peers) >>= _ : Except Failure _) = _
  rw [hm']
  change (liftM (assess c m) >>= _ : Except Failure _) = _
  rw [ha]
  rfl

/-- **A computation never sees earlier ones.** Whatever an engine computed before and whatever was
written to its scores, it answers as a fresh one does over the same experiences, or stops as that
one does. After an answer its scores are those of exactly the peers of the context. An answer there
is always, unless the engine weighs feedback and the calls of a peer with a third one overflow. -/
theorem compute_anew (e : Engine K) (c : Context) (o : Opinions K) {store store' : Experiences}
    (hs : store'.peek = store.peek) :
    (e.compute c o store').map Prod.fst = (e.compute c .empty store).map Prod.fst ∧
    (∀ answer o' store₁, e.compute c o store' = .ok (answer, o', store₁) →
      o'.trust.Covers c.peers ∧ (∀ id, id ∈ o'.trust.weights ↔ id ∈ c.peers.map Peer.id) ∧
      (e.weighsFeedback → o'.credibility.Covers c.peers)) ∧
    (e.weighsFeedback = false ∨ e = eigenTrustPlusPlus ∧ store.Countable c.peers →
      ∃ answer o' store₁, e.compute c o store' = .ok (answer, o', store₁)) := by
  refine ⟨?same, fun answer o' store₁ h => ?covers, ?answers⟩
  case same =>
    obtain ⟨o₁, -, h₁, -, -⟩ := refresh_eq_hurdle e c .empty store
    obtain ⟨o₂, -, h₂, -, -⟩ := refresh_eq_hurdle e c o store'
    rw [map_compute_eq h₂, map_compute_eq h₁, hurdle_congr hs, (h₂.congr hs).matrix_eq h₁]
  case covers =>
    obtain ⟨o₁, store₂, h₁, -, hr⟩ := refresh_eq_hurdle e c o store'
    rw [refresh_eq_of_compute_eq h] at hr
    cases hh : e.hurdle c store' with
    | error f => rw [hh] at hr; cases hr
    | ok _ =>
      rw [hh] at hr
      cases hr
      exact ⟨h₁.trust_covers, h₁.mem_weights, h₁.credibility_covers⟩
  case answers =>
    rintro (he | ⟨rfl, hc⟩)
    · obtain ⟨⟨answer, o', store₁⟩, h⟩ := exists_compute_eq he c o store'
      exact ⟨answer, o', store₁, h⟩
    · obtain ⟨r, notices, o', store₁, h, -⟩ := compute_spec .eigenTrustPlusPlus c o store'
        fun _ => (Experiences.countable_congr hs c.peers).mpr hc
      exact ⟨(r, notices), o', store₁, h⟩

/-- Tables with old scores of a peer who left, and of two who stayed. -/
theorem compute_anew_trio :
    let store := Experiences.empty.put (.named "a") (.named "b") ⟨3, 1, .zero⟩
    let used := store.touch (.named "m") (.named "b")
    let o : Opinions ℚ := ⟨((ScoreTable.empty 0).set (.named "x") (.named "a") 5).setWeight
      (.named "x") 5, (ScoreTable.empty 0).set (.named "a") (.named "m") 1⟩
    used.peek = store.peek ∧ store.Countable (Context.trio .defaults).peers ∧
      ∃ answer o' store₁,
        eigenTrustPlusPlus.compute (.trio .defaults) o used = .ok (answer, o', store₁) ∧
        (eigenTrustPlusPlus.compute (.trio .defaults) .empty store).map Prod.fst = .ok answer ∧
        o'.trust.size = 9 ∧ o'.credibility.size = 9 ∧ "x" ∉ o'.trust.weights := by
  intro store used o
  have hp : used.peek = store.peek := Experiences.peek_touch _ _ _
  have hs : store.Countable (Context.trio .defaults).peers := Experiences.countable_of_fits
    (Experiences.fits_put Experiences.fits_empty (by decide) _ _) _
  obtain ⟨hsame, hcovers, hanswers⟩ := compute_anew eigenTrustPlusPlus (.trio .defaults) o hp
  obtain ⟨answer, o', store₁, h⟩ := hanswers (Or.inr ⟨rfl, hs⟩)
  obtain ⟨ht, hw, hc⟩ := hcovers answer o' store₁ h
  rw [h] at hsame
  refine ⟨hp, hs, answer, o', store₁, h, hsame.symm, ht.size_eq, (hc rfl).size_eq, ?_⟩
  rw [hw]
  decide

end Engine

end Reputation
