import Reputation.Context
import Reputation.Scoring
import Reputation.ScoreTable

/-!
# Local trust

The trust that each peer has in the others from its own experience. `LocalTrust.row` is one
observer's row: its scores of the others, or the pre-trust if they weigh nothing, with a floor under
the trust in itself. `LocalTrust.update` stores such a row and `LocalTrust.matrix` reads the rows of
some peers, each scaled to absolute sum one.
-/

namespace Reputation

open Number

namespace LocalTrust

variable {K : Type} [Number K]

/-- The least trust of a peer in itself; it keeps every row from being zero. -/
def selfFloor : K := ofDecimal false 1 (-9)

/-- The peers whom an observer scores: all but itself. -/
def partners (observer : Peer) (peers : List Peer) : List Peer :=
  peers.filter fun p => !p.same observer

/-- The scores of an observer, zero for itself. -/
def scores (s : Scoring K) (store : Experiences) (observer : Peer) (peers : List Peer) : Vec K :=
  ⟨peers.map fun p => if p.same observer then zero else s.trust (store.peek observer p)⟩

/-- The sum of an observer's scores of the others. -/
def weight (s : Scoring K) (store : Experiences) (observer : Peer) (peers : List Peer) : K :=
  (partners observer peers).foldl (fun w p => w + s.trust (store.peek observer p)) zero

/-- Puts the floor under an observer's trust in itself. -/
def raiseSelf (observer : Peer) (peers : List Peer) (v : Vec K) : Vec K :=
  ⟨List.zipWith (fun p x => if p.same observer then raise selfFloor x else x) peers v.entries⟩

/-- **The row of an observer.** -/
def row (s : Scoring K) (store : Experiences) (observer : Peer) (c : Context) : Vec K :=
  raiseSelf observer c.peers <|
    if eq (weight s store observer c.peers) zero then c.preTrust
    else scores s store observer c.peers

/-- The store after an observer was asked for its experience with everyone. -/
def consult (store : Experiences) (observer : Peer) (peers : List Peer) : Experiences :=
  (partners observer peers).foldl (fun store p => store.touch observer p) store

/-- Computes the row of an observer into a table, whose weight for the observer is the sum of the
scores. -/
def update (s : Scoring K) (observer : Peer) (c : Context) (table : ScoreTable K)
    (store : Experiences) : Except TrustError (ScoreTable K × Experiences) := do
  let table := table.setWeight observer (weight s store observer c.peers)
  let table ← table.setVector observer c.peers (row s store observer c)
  .ok (table, consult store observer c.peers)

/-- Computes the rows of all peers of a context into an emptied table. -/
def updateAll (s : Scoring K) (c : Context) (table : ScoreTable K) (store : Experiences) :
    Except TrustError (ScoreTable K × Experiences) :=
  c.peers.foldlM (fun (table, store) p => update s p c table store) (table.clear, store)

/-- **The matrix of local trust** between some peers. -/
def matrix (table : ScoreTable K) (peers : List Peer) : Except TrustError (Matrix K) :=
  (table.matrix peers).map Matrix.normalizeRows

end LocalTrust

end Reputation
