import Reputation.Experience.Basic
import Reputation.Linear.Matrix
import Reputation.Pair
import Reputation.Peer

/-!
# The store of experiences

One experience for every ordered pair of identities that was ever touched. Asking for an experience
with `Experiences.experience` stores an empty one where there was none, `Experiences.peek` only
looks. The store remembers every identity as the peer who was first stored under it, and lists peers
as remembered. `Experiences.prune` forgets what was last updated too long ago.
-/

namespace Reputation

/-- **A store of experiences**, with the seconds for which one is kept without a change. -/
structure Experiences where
  retention : UInt64
  entries : Std.ExtTreeMap Pair Experience
  known : Std.ExtTreeMap String Peer

namespace Experiences

/-- The hours for which an experience is kept by default. -/
def defaultHours : UInt64 := 24

/-- An empty store that keeps experiences for some hours. -/
def withRetention (hours : UInt64) : Except Fault Experiences :=
  if hours.toNat * 3600 < UInt64.size then .ok ⟨hours * 3600, ∅, ∅⟩ else .error .counterOverflow

/-- An empty store. -/
def empty : Experiences := ⟨defaultHours * 3600, ∅, ∅⟩

instance : Inhabited Experiences := ⟨empty⟩

/-- The key of an observer and a partner. -/
def key (observer partner : Peer) : Pair := ⟨observer.id, partner.id⟩

/-! ### Single pairs -/

/-- Remembers a peer, unless its identity is remembered already. -/
def remember (s : Experiences) (p : Peer) : Experiences :=
  { s with known := s.known.insertIfNew p.id p }

/-- The peer who is remembered under an identity. -/
def peerOf (s : Experiences) (id : String) : Peer := (s.known[id]?).getD (Peer.named id)

/-- The experience of a pair; an empty one if none is stored. -/
def peek (s : Experiences) (observer partner : Peer) : Experience :=
  (s.entries[key observer partner]?).getD .none

/-- Replaces the experience of a pair. -/
def put (s : Experiences) (observer partner : Peer) (e : Experience) : Experiences :=
  let s := (s.remember observer).remember partner
  { s with entries := s.entries.insert (key observer partner) e }

/-- Makes sure that the experience of a pair is stored. -/
def touch (s : Experiences) (observer partner : Peer) : Experiences :=
  let s := (s.remember observer).remember partner
  { s with entries := s.entries.insertIfNew (key observer partner) .none }

/-- The experience of a pair, which is stored from then on. -/
def experience (s : Experiences) (observer partner : Peer) : Experience × Experiences :=
  (s.peek observer partner, s.touch observer partner)

/-- Changes the experience of a pair. -/
def modify (s : Experiences) (observer partner : Peer) (f : Experience → Experience) :
    Experiences :=
  s.put observer partner (f (s.peek observer partner))

/-- **Records an interaction.** Neutral ones, and those of a peer with itself, are passed over. -/
def record (s : Experiences) (observer partner : Peer) (outcome : Outcome) (t : Instant) :
    Except Fault Experiences :=
  if observer.same partner || outcome == .neutral then .ok s
  else do .ok (s.put observer partner (← (s.peek observer partner).record outcome t))

/-- Stores the experiences that an observer reports, as of the time `t`. -/
def report (s : Experiences) (observer : Peer) (es : List (Peer × Experience)) (t : Instant) :
    Experiences :=
  es.foldl (fun s (p, e) => s.put observer p { e with updated := t }) s

/-- Number of stored experiences. -/
def size (s : Experiences) : Nat := s.entries.size

/-- Forgets every experience that was last updated longer than the retention before `t`. -/
def prune (s : Experiences) (t : Instant) : Experiences :=
  { s with entries := s.entries.filter fun _ e => decide (t.since e.updated ≤ s.retention) }

/-! ### Listings -/

/-- The experiences of an observer, in ascending order of the partners. -/
def ofObserver (s : Experiences) (observer : Peer) : List (Peer × Experience) :=
  (s.entries.toList.filter fun (k, _) => k.observer == observer.id).map
    fun (k, e) => (s.peerOf k.partner, e)

/-- Every experience with a call, in ascending order of observer and partner. -/
def interactions (s : Experiences) : Except Fault (List (Peer × Peer × Experience)) := do
  let used ← s.entries.toList.filterM fun (_, e) => e.isUsed
  .ok (used.map fun (k, e) => (s.peerOf k.observer, s.peerOf k.partner, e))

/-- The experiences between some peers: row `i` holds what the `i`-th has seen of each. -/
def snapshot (s : Experiences) (peers : List Peer) : List (List Experience) :=
  peers.map fun observer => peers.map fun partner => s.peek observer partner

/-- Have both peers had calls with the third one? The second is asked only if the first has. -/
def bothUsed (s : Experiences) (p q partner : Peer) : Except Fault Bool := do
  if ← (s.peek p partner).isUsed then (s.peek q partner).isUsed else .ok false

/-- **The matrix of shared experience**: 1 where another peer than the local one and the local one
have both had calls with the peer of the column, which is not the peer of the row. -/
def shared {K : Type} [Number K] (s : Experiences) (home : Peer) (peers : List Peer) :
    Except Failure (Matrix K) := do
  let rows ← peers.zipIdx.mapM fun (p, i) => do
    let cells ← peers.zipIdx.mapM fun (q, j) => do
      if p.same home || i == j then pure Number.zero
      else do
        let both ← s.bothUsed home p q
        pure (if both then Number.one else Number.zero)
    pure (Vec.mk cells)
  Matrix.ofRows rows

end Experiences

end Reputation
