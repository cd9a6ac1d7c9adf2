import Reputation.EigenTrust.Feedback
import Reputation.Proofs.EigenTrust.LocalTrust
import Reputation.Proofs.Failure

/-! # Credibility as a function of two peers

`Feedback.credibility` is how far two peers of a list agree about the others: the mean contrast of
their successes with the peers whom both have called, added up in order (`Feedback.agreement_eq`).
Where these calls can be counted, `Feedback.update_spec` says that the table holds the credibility of
every two peers.

The matrix read from both tables has a function of two peers as its cells as well: local trust
weighed by credibility, or left as it is if nothing is left of the trust in others
(`Feedback.matrix_spec`). -/

namespace Reputation

open Number

namespace Feedback

variable {K : Type} [Number K]

/-! ### The mean contribution -/

/-- Adds and counts the contrast of two experiences, if there were calls in both. -/
def tally (x : K × ℕ) (ef : Experience × Experience) : K × ℕ :=
  if ef.1.used && ef.2.used then
    (x.1 + Scoring.contrast (ofNat ef.1.successes.toNat) (ofNat ef.2.successes.toNat), x.2 + 1)
  else x

/-- **The mean contrast** of the pairs of experiences that both have calls. -/
def agreement (es : List (Experience × Experience)) : K :=
  let (total, count) := es.foldl tally (zero, 0)
  if count = 0 then zero else total / ofNat count

/-- The contrasts of the pairs of experiences that both have calls. -/
def contrasts (es : List (Experience × Experience)) : List K :=
  (es.filter fun ef => ef.1.used && ef.2.used).map fun ef =>
    Scoring.contrast (ofNat ef.1.successes.toNat) (ofNat ef.2.successes.toNat)

/-- The sum of some numbers over how many there are, zero if there is none. -/
def average (xs : List K) : K :=
  if xs.length = 0 then zero else xs.foldl (· + ·) zero / ofNat xs.length

theorem contrasts_cons (ef : Experience × Experience) (es : List (Experience × Experience)) :
    contrasts (K := K) (ef :: es) =
      if ef.1.used && ef.2.used then
        Scoring.contrast (ofNat ef.1.successes.toNat) (ofNat ef.2.successes.toNat) :: contrasts es
      else contrasts es := by
  unfold contrasts
  rw [List.filter_cons]
  split <;> rfl

theorem foldl_tally (es : List (Experience × Experience)) (x : K × ℕ) :
    es.foldl tally x =
      ((contrasts es).foldl (· + ·) x.1, x.2 + (contrasts (K := K) es).length) := by
  induction es generalizing x with
  | nil => rfl
  | cons ef es ih =>
    rw [List.foldl_cons, ih, contrasts_cons]
    unfold tally
    split
    · rw [List.foldl_cons, List.length_cons, Nat.add_assoc, Nat.add_comm 1]
    · rfl

/-- **Agreement is an average**, added up in order. -/
theorem agreement_eq (es : List (Experience × Experience)) :
    agreement (K := K) es = average (contrasts es) := by
  unfold agreement average
  rw [foldl_tally]
  simp only [Nat.zero_add]

theorem contribute_similarity {ef : Experience × Experience} (h₁ : ef.1.Fits) (h₂ : ef.2.Fits)
    (x : K × ℕ) : contribute .similarity x ef = .ok (tally x ef) := by
  obtain ⟨e, f⟩ := ef
  obtain ⟨total, count⟩ := x
  unfold contribute tally Scoring.similarity
  simp only [Experience.isUsed_of_fits h₁, Experience.isUsed_of_fits h₂]
  cases e.used <;> cases f.used <;> rfl

theorem mean_similarity {es : List (Experience × Experience)}
    (h : ∀ ef ∈ es, ef.1.Fits ∧ ef.2.Fits) : mean (K := K) .similarity es = .ok (agreement es) := by
  unfold mean
  rw [foldlM_eq_ok (g := tally) fun x ef hef => contribute_similarity (h ef hef).1 (h ef hef).2 x]
  rfl

/-! ### From a snapshot to peers -/

/-- What two peers have seen of the others of a list. -/
def witnesses (store : Experiences) (ps : List Peer) (p q : Peer) :
    List (Experience × Experience) :=
  (ps.filter fun r => !r.same p && !r.same q).map fun r => (store.peek p r, store.peek q r)

/-- **The credibility of a peer with another one** of a list. -/
def credibility (store : Experiences) (ps : List Peer) (p q : Peer) : K :=
  if q.same p then one else agreement (witnesses store ps p q)

theorem fits_witnesses {store : Experiences} {ps : List Peer} (hs : store.Countable ps) {p q : Peer}
    (hp : p ∈ ps) (hq : q ∈ ps) (hpq : p.id ≠ q.id) :
    ∀ ef ∈ witnesses store ps p q, ef.1.Fits ∧ ef.2.Fits := by
  intro ef hef
  obtain ⟨r, hr, rfl⟩ := List.mem_map.mp hef
  obtain ⟨hr, hn⟩ := List.mem_filter.mp hr
  simp only [Bool.and_eq_true, Bool.not_eq_true', Bool.eq_false_iff, ne_eq, Peer.same_iff] at hn
  exact ⟨hs p hp q hq r hr hpq hn.1 hn.2, hs q hq p hp r hr (Ne.symm hpq) hn.2 hn.1⟩

/-- The credibility of a peer with another one of a list, unless a count on the way overflows. -/
def judge (s : Scoring K) (store : Experiences) (ps : List Peer) (p q : Peer) : Except Fault K :=
  if q.same p then .ok one else mean s (witnesses store ps p q)

theorem judge_similarity {store : Experiences} {ps : List Peer} (hs : store.Countable ps)
    {p q : Peer} (hp : p ∈ ps) (hq : q ∈ ps) :
    judge (K := K) .similarity store ps p q = .ok (credibility store ps p q) := by
  unfold judge credibility
  split
  · rfl
  · next h => exact mean_similarity (fits_witnesses hs hp hq fun e => h (Peer.same_iff.mpr e.symm))

theorem zipIdx_snapshot (store : Experiences) (ps : List Peer) :
    (store.snapshot ps).zipIdx = ps.zipIdx.map fun x => (ps.map (store.peek x.1), x.2) := by
  unfold Experiences.snapshot
  rw [List.zipIdx_map]
  rfl

section Snapshot
variable {ps : List Peer} (hd : Peer.Distinct ps)
include hd

theorem shared_eq (store : Experiences) {i j : ℕ} {p q : Peer} (hp : ps[i]? = some p)
    (hq : ps[j]? = some q) :
    shared i j (ps.map (store.peek p)) (ps.map (store.peek q)) = witnesses store ps p q := by
  have hz : (List.zip (ps.map (store.peek p)) (ps.map (store.peek q))).zipIdx =
      ps.zipIdx.map fun x => ((store.peek p x.1, store.peek q x.1), x.2) := by
    rw [List.zip_map', List.zipIdx_map]
    rfl
  have hf := Peer.zipIdx_filter_map_fst ps (P := fun x => x.2 != i && x.2 != j)
    (Q := fun r => !r.same p && !r.same q) fun k r hr => by
      simp only [Peer.bne_eq_of_getElem? hd hp hr, Peer.bne_eq_of_getElem? hd hq hr]
  unfold shared witnesses
  rw [hz, List.filter_map, List.map_map, ← hf, List.map_map]
  rfl

theorem row_snapshot (s : Scoring K) (store : Experiences) {i : ℕ} {p : Peer}
    (hp : ps[i]? = some p) :
    row s (store.snapshot ps) i (ps.map (store.peek p)) =
      (ps.mapM (judge s store ps p)).map Vec.mk := by
  unfold row
  rw [zipIdx_snapshot, List.mapM_map, Peer.zipIdx_mapM_eq_mapM fun j q hq => ?_]
  · cases ps.mapM (judge s store ps p) <;> rfl
  · have hs := Peer.same_iff_of_getElem? hd hp hq
    by_cases hij : i = j
    · simp [judge, hij, hs.mp hij]
    · have hqp : q.same p = false := Bool.eq_false_iff.mpr fun h => hij (hs.mpr h)
      simp [judge, hij, hqp, shared_eq hd store hp hq]

end Snapshot

/-! ### Writing the table -/

theorem zip_snapshot_zipIdx (store : Experiences) (ps : List Peer) :
    List.zip ps (store.snapshot ps).zipIdx =
      ps.zipIdx.map fun x => (x.1, ps.map (store.peek x.1), x.2) := by
  have hm := List.zip_map' (l := ps.zipIdx) (f := Prod.fst)
    (g := fun x => (ps.map (store.peek x.1), x.2))
  rw [List.zipIdx_map_fst] at hm
  rw [zipIdx_snapshot, hm]

/-- Writes the row of one peer. -/
def enter (s : Scoring K) (c : Context) (store : Experiences) (table : ScoreTable K) (p : Peer) :
    Except Failure (ScoreTable K) := do
  let xs ← (c.peers.mapM (judge s store c.peers p) : Except Fault (List K))
  table.setVector p c.peers ⟨xs⟩

theorem update_eq (s : Scoring K) (c : Context) (table : ScoreTable K) (store : Experiences) :
    update s c table store = c.peers.foldlM (enter s c store) table.clear := by
  unfold update
  simp only
  rw [zip_snapshot_zipIdx, List.foldlM_map]
  refine Peer.zipIdx_foldlM_eq_foldlM (fun t i p hp => ?_) _
  simp only [row_snapshot c.nodup s store hp]
  unfold enter
  cases c.peers.mapM (judge s store c.peers p) <;> rfl

theorem enter_similarity {c : Context} {store : Experiences} (hs : store.Countable c.peers)
    (table : ScoreTable K) {p : Peer} (hp : p ∈ c.peers) :
    enter .similarity c store table p =
      .ok (table.setRow p c.peers (credibility store c.peers p)) := by
  have hm := mapM_eq_ok fun q hq => judge_similarity (K := K) hs hp hq
  unfold enter
  rw [hm]
  change (liftM (table.setVector p c.peers (Vec.tabulate c.peers _)) : Except Failure _) = _
  rw [ScoreTable.setVector_tabulate]
  rfl

/-- **The table holds the credibility of every two peers.** -/
theorem update_spec {c : Context} {store : Experiences} (hs : store.Countable c.peers)
    (table : ScoreTable K) :
    ∃ table', update .similarity c table store = .ok table' ∧
      ∀ p ∈ c.peers, ∀ q ∈ c.peers, table'.score p q = credibility store c.peers p q := by
  have hu : update .similarity c table store = .ok (c.peers.foldl
      (fun t p => t.setRow p c.peers (credibility store c.peers p)) table.clear) := by
    rw [update_eq]
    exact foldlM_eq_ok (fun t p hp => enter_similarity hs t hp) _
  exact ⟨_, hu, fun _ hp _ hq => ScoreTable.score_setRows _ _ c.nodup c.nodup hp hq⟩

/-! ### Weighing -/

/-- A peer's trust `f` weighed by the credibility `g`; its trust in itself counts in full. -/
def weighted (p : Peer) (f g : Peer → K) (q : Peer) : K :=
  f q * (if q.same p then one else one - Number.abs (g q))

/-- **A peer's trust weighed by credibility** and scaled again, or `f` itself if nothing is left of
the trust in others. -/
def discounted (ps : List Peer) (p : Peer) (f g : Peer → K) (q : Peer) : K :=
  if eq (Number.sum ((ps.filter fun r => !r.same p).map (weighted p f g))) zero then f q
  else Vec.scaled ps (weighted p f g) q

section Discount
variable {ps : List Peer} (hd : Peer.Distinct ps) {i : ℕ} {p : Peer} (hp : ps[i]? = some p)
include hd hp

theorem weigh_tabulate (f g : Peer → K) :
    weigh i (Vec.tabulate ps f) (Vec.tabulate ps g) = Vec.tabulate ps (weighted p f g) := by
  unfold weigh Vec.tabulate
  rw [List.zip_map', List.zipIdx_map, List.map_map]
  refine congrArg Vec.mk (Peer.zipIdx_map_eq_map fun j q hq => ?_)
  have := Peer.same_iff_of_getElem? hd hp hq
  by_cases hij : i = j
  · simp [weighted, hij, this.mp hij]
  · simp [weighted, hij, Bool.eq_false_iff.mpr fun h => hij (this.mpr h)]

omit [Number K] in
theorem filter_zipIdx_entries (f : Peer → K) :
    (((Vec.tabulate ps f).entries.zipIdx.filter fun x => x.2 != i).map Prod.fst) =
      (ps.filter fun r => !r.same p).map f := by
  have hf := Peer.zipIdx_filter_map_fst ps (P := fun x => x.2 != i)
    (Q := fun r => !r.same p) fun k r hr => Peer.bne_eq_of_getElem? hd hp hr
  rw [Vec.entries_tabulate, List.zipIdx_map, List.filter_map, List.map_map, ← hf, List.map_map]
  rfl

theorem discount_tabulate (f g : Peer → K) :
    discount i (Vec.tabulate ps f) (Vec.tabulate ps g) = Vec.tabulate ps (discounted ps p f g) := by
  unfold discount offDiagonal
  simp only [weigh_tabulate hd hp]
  rw [filter_zipIdx_entries hd hp, Vec.normalize_tabulate]
  unfold discounted
  split <;> rfl

end Discount

theorem matrix_spec {trust credibility : ScoreTable K} {ps : List Peer} (hd : Peer.Distinct ps)
    {f g : Peer → Peer → K} (hf : ∀ p ∈ ps, ∀ q ∈ ps, trust.score p q = f p q)
    (hg : ∀ p ∈ ps, ∀ q ∈ ps, credibility.score p q = g p q) :
    ∃ m, matrix trust credibility ps = .ok m ∧
      m.Tabulates ps fun p => discounted ps p (Vec.scaled ps (f p)) (g p) := by
  obtain ⟨m, hm, hmt⟩ := LocalTrust.matrix_spec hf
  obtain ⟨k, hk, hkt⟩ := credibility.matrix_eq ps
  have hr : (List.zip m.toRows k.toRows).zipIdx.map (fun x => discount x.2 x.1.1 x.1.2) =
      ps.map fun p => Vec.tabulate ps (discounted ps p (Vec.scaled ps (f p)) (g p)) := by
    rw [hmt.toRows_eq, (hkt.congr hg).toRows_eq, List.zip_map', List.zipIdx_map, List.map_map]
    exact Peer.zipIdx_map_eq_map fun i p hp => discount_tabulate hd hp _ _
  obtain ⟨n, hn, hnt⟩ := Matrix.ofRows_tabulate ps
    fun p => discounted ps p (Vec.scaled ps (f p)) (g p)
  refine ⟨n, ?_, hnt⟩
  unfold matrix
  rw [hm, ← hn, ← hr]
  change (credibility.matrix ps >>= _) = _
  rw [hk]
  rfl

end Feedback

end Reputation
