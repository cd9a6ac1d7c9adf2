import Reputation.EigenTrust.LocalTrust
import Reputation.Proofs.Experience.Store
import Reputation.Proofs.PreTrust
import Reputation.Proofs.ScoreTable

/-! # Local trust as a function of two peers

`LocalTrust.opinion` is the entry of an observer's row at a peer. The rows of the observers of a list
are written one after the other, and each stays as it was written: after the last of them the table
holds the opinion of every observer of the list (`LocalTrust.updates_spec`), whatever it held before.
The matrix that is read from it has the scaled opinions as its cells (`LocalTrust.matrix_spec`). -/

namespace Reputation

open Number

variable {K : Type} [Number K]

namespace LocalTrust

/-- **What an observer holds of a peer** of the context, before scaling. -/
def opinion (s : Scoring K) (store : Experiences) (c : Context) (observer p : Peer) : K :=
  let x := if eq (weight s store observer c.peers) zero then c.preTrusted.share c.peers p
    else if p.same observer then zero else s.trust (store.peek observer p)
  if p.same observer then raise selfFloor x else x

theorem row_eq (s : Scoring K) (store : Experiences) (observer : Peer) (c : Context) :
    row s store observer c = Vec.tabulate c.peers (opinion s store c observer) := by
  unfold row raiseSelf opinion
  split <;> simp [Vec.tabulate, Context.preTrust, PreTrusted.distribution_eq, scores,
    List.zipWith_map_right, List.zipWith_self, *]

/-- Only the identity of an observer counts. -/
theorem opinion_congr (s : Scoring K) (store : Experiences) (c : Context) {o o' : Peer}
    (h : o.id = o'.id) : opinion s store c o = opinion s store c o' := by
  have hs : ∀ p : Peer, p.same o = p.same o' := fun p => by unfold Peer.same; rw [h]
  have hp : ∀ p, store.peek o p = store.peek o' p := fun p => store.peek_congr h rfl
  have hw : weight s store o c.peers = weight s store o' c.peers := by
    unfold weight partners; simp only [hs, hp]
  funext p
  unfold opinion; rw [hw, hs p, hp p]

/-- Only the answers of the store count. -/
theorem opinion_store_congr (s : Scoring K) {store store' : Experiences}
    (h : store'.peek = store.peek) (c : Context) : opinion s store' c = opinion s store c := by
  funext o p
  unfold opinion weight; rw [h]

theorem peek_consult (store : Experiences) (observer : Peer) (peers : List Peer) :
    (consult store observer peers).peek = store.peek := by
  unfold consult
  induction partners observer peers generalizing store with
  | nil => rfl
  | cons p ps ih => rw [List.foldl_cons, ih, Experiences.peek_touch]

/-! ### Writing the rows -/

theorem update_eq (s : Scoring K) (o : Peer) (c : Context) (table : ScoreTable K)
    (store : Experiences) :
    update s o c table store = .ok ((table.setWeight o (weight s store o c.peers)).setRow o c.peers
      (opinion s store c o), consult store o c.peers) := by
  change (ScoreTable.setVector _ _ _ _ >>= _) = _
  rw [row_eq, ScoreTable.setVector_tabulate]
  rfl

/-- **One row is written**: the observer's scores are its opinions, and those of the others stay. -/
theorem update_spec (s : Scoring K) (o : Peer) (c : Context) (table : ScoreTable K)
    (store : Experiences) :
    ∃ table' store', update s o c table store = .ok (table', store') ∧
      store'.peek = store.peek ∧
      (∀ p, p.id = o.id → ∀ q ∈ c.peers, table'.score p q = opinion s store c p q) ∧
      (∀ p, p.id ≠ o.id → ∀ q, table'.score p q = table.score p q) := by
  refine ⟨_, _, update_eq s o c table store, peek_consult _ _ _, fun p hp q hq => ?_,
    fun p hp q => ?_⟩
  · rw [ScoreTable.score_setRow_of_mem _ _ c.nodup hp hq, opinion_congr s store c hp]
  · exact ScoreTable.score_setRow_of_ne _ _ _ hp q

/-- **The rows of a list of observers are written**, in their order and into any table. -/
theorem updates_spec (s : Scoring K) (c : Context) (order : List Peer) (table : ScoreTable K)
    (store : Experiences) :
    ∃ table' store', order.foldlM (fun (x : ScoreTable K × Experiences) p => update s p c x.1 x.2)
        (table, store) = .ok (table', store') ∧
      store'.peek = store.peek ∧
      (∀ p, p.id ∈ order.map Peer.id → ∀ q ∈ c.peers, table'.score p q = opinion s store c p q) ∧
      (∀ p, p.id ∉ order.map Peer.id → ∀ q, table'.score p q = table.score p q) := by
  induction order generalizing table store with
  | nil => exact ⟨table, store, rfl, rfl, by simp, fun _ _ _ => rfl⟩
  | cons o order ih =>
    obtain ⟨table₁, store₁, h₁, hp₁, hm₁, hn₁⟩ := update_spec s o c table store
    obtain ⟨table₂, store₂, h₂, hp₂, hm₂, hn₂⟩ := ih table₁ store₁
    rw [opinion_store_congr s hp₁] at hm₂
    refine ⟨table₂, store₂, ?_, hp₂.trans hp₁, fun p hp q hq => ?_, fun p hp q => ?_⟩
    · rw [List.foldlM_cons, h₁]; exact h₂
    · by_cases hmem : p.id ∈ order.map Peer.id
      · exact hm₂ p hmem q hq
      · have ho : p.id = o.id := by simpa [hmem] using hp
        rw [hn₂ p hmem q, hm₁ p ho q hq]
    · rw [List.map_cons, List.mem_cons, not_or] at hp
      rw [hn₂ p hp.2 q, hn₁ p hp.1 q]

/-! ### Reading the matrix -/

theorem matrix_spec {table : ScoreTable K} {ps : List Peer} {f : Peer → Peer → K}
    (h : ∀ p ∈ ps, ∀ q ∈ ps, table.score p q = f p q) :
    ∃ m, matrix table ps = .ok m ∧ m.Tabulates ps fun p => Vec.scaled ps (f p) := by
  obtain ⟨m, hm, ht⟩ := table.matrix_eq ps
  refine ⟨m.normalizeRows, ?_, (ht.congr h).normalizeRows⟩
  unfold matrix
  rw [hm]; rfl

end LocalTrust

end Reputation
