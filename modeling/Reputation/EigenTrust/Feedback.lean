import Reputation.Context
import Reputation.EigenTrust.LocalTrust

/-!
# Credibility of feedback

How far two observers agree about the partners whom both have called. `Feedback.mean` is the mean
contribution of these partners, and `Feedback.update` stores it for every ordered pair of peers.
`Feedback.matrix` weighs local trust by it: disagreement in either direction takes trust away.
-/

namespace Reputation

open Number

namespace Feedback

variable {K : Type} [Number K]

/-- What two observers have seen of the peers other than themselves; `i` and `j` are the positions
of the observers. -/
def shared (i j : Nat) (first second : List Experience) : List (Experience × Experience) :=
  ((List.zip first second).zipIdx.filter fun (_, k) => k != i && k != j).map Prod.fst

/-- Adds the contribution of a partner, if both observers have called it, and counts it. -/
def contribute (s : Scoring K) : K × Nat → Experience × Experience → Except Fault (K × Nat)
  | (total, count), (e, f) => do
    if ← e.isUsed then
      if ← f.isUsed then
        let x ← s.credibility e f
        .ok (total + x, count + 1)
      else .ok (total, count)
    else .ok (total, count)

/-- **The mean contribution** of the partners whom both observers have called; zero if there is
none. -/
def mean (s : Scoring K) (es : List (Experience × Experience)) : Except Fault K := do
  let (total, count) ← es.foldlM (contribute s) (zero, 0)
  .ok (if count = 0 then zero else total / ofNat count)

/-- The credibility of every peer with the `i`-th one, from a snapshot of their experiences. -/
def row (s : Scoring K) (rows : List (List Experience)) (i : Nat) (first : List Experience) :
    Except Fault (Vec K) := do
  let xs ← rows.zipIdx.mapM fun (second, j) =>
    if i == j then .ok one else mean s (shared i j first second)
  .ok ⟨xs⟩

/-- Stores the credibility between all peers of a context in an emptied table. -/
def update (s : Scoring K) (c : Context) (table : ScoreTable K) (store : Experiences) :
    Except Failure (ScoreTable K) :=
  let rows := store.snapshot c.peers
  (List.zip c.peers rows.zipIdx).foldlM
    (fun table (p, first, i) => do
      let v ← row s rows i first
      table.setVector p c.peers v)
    table.clear

/-! ### Weighing -/

/-- A row of local trust weighed by what credibility leaves of it; the peer's trust in itself, at
position `i`, counts in full. -/
def weigh (i : Nat) (v credibility : Vec K) : Vec K :=
  ⟨(List.zip v.entries credibility.entries).zipIdx.map fun ((x, c), j) =>
    x * (if i == j then one else one - Number.abs c)⟩

/-- The sum of the entries at other positions than `i`. -/
def offDiagonal (i : Nat) (v : Vec K) : K :=
  Number.sum ((v.entries.zipIdx.filter fun (_, j) => j != i).map Prod.fst)

/-- A row weighed by credibility and scaled again, or the row itself if nothing is left of the trust
in others. -/
def discount (i : Nat) (v credibility : Vec K) : Vec K :=
  let weighed := weigh i v credibility
  if eq (offDiagonal i weighed) zero then v else weighed.normalize

/-- **The matrix of local trust weighed by credibility.** -/
def matrix (trust credibility : ScoreTable K) (peers : List Peer) :
    Except TrustError (Matrix K) := do
  let m ← LocalTrust.matrix trust peers
  let c ← credibility.matrix peers
  Matrix.ofRows ((List.zip m.toRows c.toRows).zipIdx.map fun ((v, c), i) => discount i v c)

end Feedback

end Reputation
