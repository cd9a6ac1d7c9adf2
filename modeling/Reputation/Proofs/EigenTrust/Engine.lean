import Reputation.EigenTrust.Engine
import Reputation.Proofs.Context
import Reputation.Proofs.EigenTrust.Credibility
import Reputation.Proofs.PowerIteration.Orbit

/-! # What an engine computes

`Engine.regard` is the cell of the matrix that belongs to two peers of a context, and
`Engine.trail` the trust in a peer after some steps, both as functions of the answers of the store
alone. What an engine stored before plays no part: the rows may be written in any order and into any
tables (`Engine.gather_spec`). `Engine.settle` is a computation up to the end of its power iteration,
so that its steps can be told (`Engine.steps`): it ends at the scaled trail (`Engine.settle_spec`,
`Engine.compute_spec`).

Calls have to be countable only where feedback is weighed. -/

namespace Reputation

open Number

namespace Engine

variable {K : Type} [Number K]

/-! ### The matrix -/

/-- **The trust that a peer puts into another one**, before the power iteration. -/
def regard (e : Engine K) (store : Experiences) (c : Context) (p : Peer) : Peer → K :=
  let f := Vec.scaled c.peers (LocalTrust.opinion e.scoring store c p)
  if e.weighsFeedback then Feedback.discounted c.peers p f (Feedback.credibility store c.peers p)
  else f

/-- Computes the rows of some observers in turn. -/
def updateTrusts (e : Engine K) (order : List Peer) (c : Context) (o : Opinions K)
    (store : Experiences) : Except TrustError (Opinions K × Experiences) :=
  order.foldlM (fun x p => e.updateTrust p c x.1 x.2) (o, store)

/-- Computes the rows of some observers, and the credibility if the engine weighs it. -/
def gather (e : Engine K) (order : List Peer) (c : Context) (o : Opinions K) (store : Experiences) :
    Except Failure (Opinions K × Experiences) := do
  let (o, store) ← e.updateTrusts order c o store
  if e.weighsFeedback then .ok (← e.updateFeedback c o store, store) else .ok (o, store)

theorem updateTrust_eq (e : Engine K) (p : Peer) (c : Context) (o : Opinions K)
    (store : Experiences) :
    e.updateTrust p c o store =
      (LocalTrust.update e.scoring p c o.trust store).map
        fun x => ({ o with trust := x.1 }, x.2) := by
  unfold updateTrust
  cases LocalTrust.update e.scoring p c o.trust store <;> rfl

theorem updateTrusts_eq (e : Engine K) (order : List Peer) (c : Context) (o : Opinions K)
    (store : Experiences) :
    e.updateTrusts order c o store =
      (order.foldlM (fun (x : ScoreTable K × Experiences) p =>
        LocalTrust.update e.scoring p c x.1 x.2) (o.trust, store)).map
          fun x => ({ o with trust := x.1 }, x.2) := by
  unfold updateTrusts
  induction order generalizing o store with
  | nil => rfl
  | cons p order ih =>
    rw [List.foldlM_cons, List.foldlM_cons, updateTrust_eq]
    cases LocalTrust.update e.scoring p c o.trust store with
    | error _ => rfl
    | ok x => exact ih _ _

theorem refresh_eq (e : Engine K) (c : Context) (o : Opinions K) (store : Experiences) :
    e.refresh c o store = e.gather c.peers c { o with trust := o.trust.clear } store := by
  unfold refresh gather LocalTrust.updateAll
  rw [updateTrusts_eq]
  cases c.peers.foldlM (fun (x : ScoreTable K × Experiences) p =>
    LocalTrust.update e.scoring p c x.1 x.2) (o.trust.clear, store) <;> rfl

theorem gather_eq (e : Engine K) {order : List Peer} {c : Context} {o : Opinions K}
    {store store' : Experiences} {trust : ScoreTable K}
    (h : order.foldlM (fun (x : ScoreTable K × Experiences) p =>
      LocalTrust.update e.scoring p c x.1 x.2) (o.trust, store) = .ok (trust, store')) :
    e.gather order c o store =
      if e.weighsFeedback then
        (Feedback.update e.scoring c o.credibility store').map fun t => (⟨trust, t⟩, store')
      else .ok (⟨trust, o.credibility⟩, store') := by
  unfold gather
  rw [updateTrusts_eq, h]
  change (if e.weighsFeedback then e.updateFeedback c ⟨trust, o.credibility⟩ store' >>= _
    else _) = _
  unfold updateFeedback
  cases Feedback.update e.scoring c o.credibility store' <;> rfl

/-- **The credibility that is stored** is that of every two peers. -/
theorem updateFeedback_spec {c : Context} {store : Experiences} (hs : store.Countable c.peers)
    (o : Opinions K) :
    ∃ o', (eigenTrustPlusPlus : Engine K).updateFeedback c o store = .ok o' ∧
      ∀ p ∈ c.peers, ∀ q ∈ c.peers,
        o'.credibility.score p q = Feedback.credibility store c.peers p q := by
  obtain ⟨table, hu, ht⟩ := Feedback.update_spec hs o.credibility
  refine ⟨{ o with credibility := table }, ?_, ht⟩
  change (Feedback.update .similarity c o.credibility store >>= _) = _
  rw [hu]
  rfl

/-- **The matrix after the rows of all peers were computed**, in any order and into any tables. -/
theorem gather_spec (a : Algorithm) (c : Context) {order : List Peer} (ho : c.peers ⊆ order)
    (o : Opinions K) (store : Experiences)
    (hs : a = .eigenTrustPlusPlus → store.Countable c.peers) :
    ∃ o' store' m, (ofAlgorithm a).gather order c o store = .ok (o', store') ∧
      store'.peek = store.peek ∧ (ofAlgorithm a).matrix o' c.peers = .ok m ∧
      m.Tabulates c.peers ((ofAlgorithm a).regard store c) := by
  obtain ⟨trust, store', h, hp, hm, -⟩ :=
    LocalTrust.updates_spec (ofAlgorithm a : Engine K).scoring c order o.trust store
  have hg := gather_eq (ofAlgorithm a) h
  have hm : ∀ p ∈ c.peers, ∀ q ∈ c.peers, trust.score p q =
      LocalTrust.opinion (ofAlgorithm a).scoring store c p q :=
    fun p hp => hm p (List.mem_map_of_mem (ho hp))
  cases a with
  | eigenTrust =>
    obtain ⟨m, hm', ht⟩ := LocalTrust.matrix_spec hm
    exact ⟨⟨trust, o.credibility⟩, store', m, hg, hp, hm', ht⟩
  | eigenTrustPlusPlus =>
    have hs' := (Experiences.countable_congr hp c.peers).mpr (hs rfl)
    obtain ⟨credibility, hc, hcr⟩ := Feedback.update_spec (c := c) hs' o.credibility
    have hstore : (Feedback.credibility store' : List Peer → Peer → Peer → K) =
        Feedback.credibility store := by
      unfold Feedback.credibility Feedback.witnesses
      rw [hp]
    rw [hstore] at hcr
    obtain ⟨m, hm', ht⟩ := Feedback.matrix_spec c.nodup hm hcr
    refine ⟨⟨trust, credibility⟩, store', m, hg.trans ?_, hp, hm', ht⟩
    change (Feedback.update .similarity c o.credibility store').map _ = _
    rw [hc]
    rfl

/-! ### The iteration -/

/-- The iteration over a matrix with a row and a column for each peer. -/
def fresh (c : Context) (m : Matrix K) (rows_eq : m.rows = c.peers.length)
    (cols_eq : m.cols = c.peers.length) : PowerIteration K where
  preTrust := c.preTrust
  matrix := m
  limit := (tuning c.params : Tuning K).limit
  epsilon := (tuning c.params : Tuning K).epsilon
  alpha := (tuning c.params : Tuning K).alpha
  progress := .notStarted
  square := rows_eq.trans cols_eq.symm
  rows_eq := by
    rw [rows_eq, Context.preTrust, PreTrusted.distribution_eq, Vec.size_tabulate]

/-- **The trust in a peer after `k` steps**, before the last scaling. -/
def trail (e : Engine K) (store : Experiences) (c : Context) (k : ℕ) : Peer → K :=
  (PowerIteration.blend c.peers (e.regard store c) (c.preTrusted.share c.peers)
    (tuning c.params : Tuning K).alpha)^[k] (c.preTrusted.share c.peers)

theorem trail_succ (e : Engine K) (store : Experiences) (c : Context) (k : ℕ) :
    e.trail store c (k + 1) =
      PowerIteration.blend c.peers (e.regard store c) (c.preTrusted.share c.peers)
        (tuning c.params : Tuning K).alpha (e.trail store c k) :=
  Function.iterate_succ_apply' _ _ _

theorem iteration_eq (c : Context) (m : Matrix K) (hr : m.rows = c.peers.length)
    (hc : m.cols = c.peers.length) : iteration c m = .ok (fresh c m hr hc) :=
  PowerIteration.start_eq (fresh c m hr hc).square (fresh c m hr hc).rows_eq _ _ _

theorem assess_eq (c : Context) (m : Matrix K) (hr : m.rows = c.peers.length)
    (hc : m.cols = c.peers.length) :
    ∃ a notices, assess c m = .ok (a, notices) ∧ a.context = c ∧
      a.trust = ((fresh c m hr hc).orbit (fresh c m hr hc).outcome.2).normalize := by
  have hsize : ((fresh c m hr hc).orbit (fresh c m hr hc).outcome.2).normalize.size =
      c.peers.length := by
    rw [Vec.size_normalize, PowerIteration.size_orbit, ← hr]
    exact (fresh c m hr hc).rows_eq.symm
  refine ⟨⟨c, _, hsize⟩, ?notices, ?answer, rfl, rfl⟩
  case answer =>
    unfold assess
    rw [iteration_eq c m hr hc]
    change ((fresh c m hr hc).converge >>= _) = _
    rw [PowerIteration.converge_eq _ rfl]
    change (Assessment.build c _ >>= _) = _
    unfold Assessment.build
    rw [dif_pos hsize]
    rfl

/-! ### The computation -/

/-- **A computation up to its power iteration**, with what is stored then. -/
def settle (e : Engine K) (c : Context) (o : Opinions K) (store : Experiences) :
    Except Failure ((Vec K × PowerIteration K) × Opinions K × Experiences) := do
  let (o, store) ← e.refresh c o store
  let m ← e.matrix o c.peers
  let p ← iteration c m
  let x ← p.converge
  .ok (x, o, store)

/-- The number of steps of its power iteration. -/
def steps (e : Engine K) (c : Context) (o : Opinions K) (store : Experiences) :
    Except Failure ℕ :=
  (e.settle c o store).map fun x => x.1.2.progress.iterations

/-- What is told of an iteration over a context. -/
def report (c : Context) (p : PowerIteration K) : List Notice :=
  (tuning c.params : Tuning K).notices ++
    if p.progress.hasConverged then [] else [.notConverged p.limit]

/-- **A computation packs up what its power iteration settles at.** -/
theorem compute_eq_settle (e : Engine K) (c : Context) (o : Opinions K) (store : Experiences) :
    e.compute c o store = (do
      let ((trust, p), o, store) ← e.settle c o store
      let a ← Assessment.build c trust
      .ok ((a, report c p), o, store)) := by
  unfold compute settle
  cases e.refresh c o store with
  | error _ => rfl
  | ok x =>
    obtain ⟨o, store⟩ := x
    change (liftM (e.matrix o c.peers) >>= _ : Except Failure _) =
      (liftM (e.matrix o c.peers) >>= _ : Except Failure _) >>= _
    cases e.matrix o c.peers with
    | error _ => rfl
    | ok m =>
      change (liftM (assess c m) >>= _ : Except Failure _) =
        (liftM (iteration c m) >>= _ : Except Failure _) >>= _
      unfold assess
      cases iteration c m with
      | error _ => rfl
      | ok p =>
        change (liftM (p.converge >>= _) >>= _ : Except Failure _) =
          (liftM p.converge >>= _ : Except Failure _) >>= _
        cases p.converge with
        | error _ => rfl
        | ok x =>
          change (liftM (Assessment.build c x.1 >>= _) >>= _ : Except Failure _) =
            (liftM (Assessment.build c x.1) >>= _ : Except Failure _)
          cases Assessment.build c x.1 <;> rfl

/-- **Where a computation settles**: at the scaled trail, after the steps of the outcome. -/
theorem settle_spec (a : Algorithm) (c : Context) (o : Opinions K) (store : Experiences)
    (hs : a = .eigenTrustPlusPlus → store.Countable c.peers) :
    ∃ (m : Matrix K) (hm : m.Tabulates c.peers ((ofAlgorithm a).regard store c))
      (p : PowerIteration K) (o' : Opinions K) (store' : Experiences),
      (ofAlgorithm a).settle c o store = .ok ((Vec.tabulate c.peers (Vec.scaled c.peers
        ((ofAlgorithm a).trail store c (fresh c m hm.rows_eq hm.cols_eq).outcome.2)), p),
        o', store') ∧ store'.peek = store.peek ∧
      p.limit = (tuning c.params : Tuning K).limit ∧
      p.progress.iterations = (fresh c m hm.rows_eq hm.cols_eq).outcome.2 ∧
      p.progress.hasConverged = (fresh c m hm.rows_eq hm.cols_eq).outcome.1 := by
  obtain ⟨o', store', m, hg, hpeek, hm, ht⟩ := gather_spec a c (List.Subset.refl _)
    { o with trust := o.trust.clear } store hs
  have hv := PowerIteration.converge_eq (fresh c m ht.rows_eq ht.cols_eq) rfl
  rw [PowerIteration.orbit_tabulate ht (PreTrusted.distribution_eq _ _),
    Vec.normalize_tabulate] at hv
  obtain ⟨p, hp, hsteps⟩ : ∃ p, (fresh c m ht.rows_eq ht.cols_eq).converge = .ok (_, p) ∧
      p.limit = (tuning c.params : Tuning K).limit ∧
      p.progress.iterations = (fresh c m ht.rows_eq ht.cols_eq).outcome.2 ∧
      p.progress.hasConverged = (fresh c m ht.rows_eq ht.cols_eq).outcome.1 :=
    ⟨_, hv, rfl, PowerIteration.Progress.iterations_ofOutcome _ _,
      PowerIteration.Progress.hasConverged_ofOutcome _ _⟩
  refine ⟨m, ht, p, o', store', ?_, hpeek, hsteps⟩
  unfold settle
  rw [refresh_eq, hg]
  change (liftM (matrix _ o' c.peers) >>= _ : Except Failure _) = _
  rw [hm]
  change (liftM (iteration c m) >>= _ : Except Failure _) = _
  rw [iteration_eq]
  change (liftM (fresh c m ht.rows_eq ht.cols_eq).converge >>= _ : Except Failure _) = _
  rw [hp]
  rfl

theorem compute_of_settle {e : Engine K} {c : Context} {o o' : Opinions K}
    {store store' : Experiences} {trust : Vec K} {p : PowerIteration K}
    (h : e.settle c o store = .ok ((trust, p), o', store')) (hl : trust.size = c.peers.length) :
    e.compute c o store = .ok ((⟨c, trust, hl⟩, report c p), o', store') := by
  rw [compute_eq_settle, h]
  change (liftM (Assessment.build c trust) >>= _ : Except Failure _) = _
  rw [Assessment.build_eq_ok hl]
  rfl

/-- **What a computation of trust ends at**: the scaled trail, whatever was stored before. -/
theorem compute_spec (a : Algorithm) (c : Context) (o : Opinions K) (store : Experiences)
    (hs : a = .eigenTrustPlusPlus → store.Countable c.peers) :
    ∃ r notices o' store', (ofAlgorithm a).compute c o store = .ok ((r, notices), o', store') ∧
      r.context = c ∧ store'.peek = store.peek ∧ ∃ k,
        r.trust = Vec.tabulate c.peers (Vec.scaled c.peers ((ofAlgorithm a).trail store c k)) := by
  obtain ⟨m, hm, p, o', store', h, hp, -⟩ := settle_spec a c o store hs
  exact ⟨_, _, o', store', compute_of_settle h (Vec.size_tabulate _ _), rfl, hp, _, rfl⟩

end Engine

end Reputation
