import Reputation.Linear.Vec
import Reputation.Peer

/-!
# Pre-trusted peers

Peers who have trust without having earned it, so that a new network has where to start from.
`PreTrusted.distribution` spreads trust evenly over the pre-trusted peers of a list, or over the
whole list when it holds none of them.
-/

namespace Reputation

open Number

/-- **The pre-trusted peers**, each identity once. -/
structure PreTrusted where
  peers : List Peer
deriving Repr, Inhabited

namespace PreTrusted

/-- The pre-trusted peers of a list; of two of the same identity the first stays. -/
def ofList (peers : List Peer) : PreTrusted := ⟨Peer.firsts peers⟩

/-- Is the peer pre-trusted? -/
def contains (t : PreTrusted) (p : Peer) : Bool := t.peers.any p.same

variable {K : Type} [Number K]

/-- **The pre-trust** of some peers. -/
def distribution (t : PreTrusted) (peers : List Peer) : Vec K :=
  match peers.countP t.contains with
  | 0 => ⟨peers.map fun _ => one / ofNat peers.length⟩
  | n => ⟨peers.map fun p => if t.contains p then one / ofNat n else zero⟩

end PreTrusted

end Reputation
