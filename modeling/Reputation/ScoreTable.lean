import Reputation.Linear.Matrix
import Reputation.Pair
import Reputation.Peer

/-!
# Score tables

Pairwise scores with a weight for each observer, for the local trust between peers and for their
credibility. A pair without a score reads as the initial one. `ScoreTable.vector` and
`ScoreTable.matrix` read a table over a list of peers, `ScoreTable.setVector` writes one row.
-/

namespace Reputation

open Number

/-- **A table of scores.** -/
structure ScoreTable (K : Type) where
  initial : K
  scores : Std.ExtTreeMap Pair K
  weights : Std.ExtTreeMap String K

namespace ScoreTable

variable {K : Type}

/-- A table without scores. -/
def empty (initial : K) : ScoreTable K := ⟨initial, ∅, ∅⟩

/-- The score of a partner with an observer. -/
def score (t : ScoreTable K) (observer partner : Peer) : K :=
  (t.scores[Pair.mk observer.id partner.id]?).getD t.initial

/-- Sets the score of a partner with an observer. -/
def set (t : ScoreTable K) (observer partner : Peer) (x : K) : ScoreTable K :=
  { t with scores := t.scores.insert ⟨observer.id, partner.id⟩ x }

/-- The weight of an observer, zero if it was never set. -/
def weight [Number K] (t : ScoreTable K) (observer : Peer) : K :=
  (t.weights[observer.id]?).getD zero

/-- Sets the weight of an observer. -/
def setWeight (t : ScoreTable K) (observer : Peer) (x : K) : ScoreTable K :=
  { t with weights := t.weights.insert observer.id x }

/-- The scores of some peers with an observer. -/
def vector (t : ScoreTable K) (observer : Peer) (peers : List Peer) : Vec K :=
  ⟨peers.map fun partner => t.score observer partner⟩

/-- Sets the scores of some peers with an observer, in their order. -/
def setVector (t : ScoreTable K) (observer : Peer) (peers : List Peer) (v : Vec K) :
    Except TrustError (ScoreTable K) :=
  if peers.length = v.size then
    .ok ((List.zip peers v.entries).foldl (fun t (partner, x) => t.set observer partner x) t)
  else .error (.scoreCount v.size peers.length)

/-- The scores between some peers: row `i` belongs to the `i`-th observer. -/
def matrix (t : ScoreTable K) (peers : List Peer) : Except TrustError (Matrix K) :=
  Matrix.ofRows (peers.map fun observer => t.vector observer peers)

/-- Scales the scores between some peers so that those of each observer have absolute sum one. -/
def normalize [Number K] (t : ScoreTable K) (peers : List Peer) :
    Except TrustError (ScoreTable K) :=
  peers.foldlM (fun t observer => t.setVector observer peers (t.vector observer peers).normalize) t

/-- The table without its scores and weights. -/
def clear (t : ScoreTable K) : ScoreTable K := empty t.initial

/-- Number of scores. -/
def size (t : ScoreTable K) : Nat := t.scores.size

end ScoreTable

end Reputation
