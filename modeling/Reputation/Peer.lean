/-!
# Peers

A peer is known by its identity alone: `Peer.same` and the order of peers look at nothing else, and
a peer met again under another endpoint is the same peer.
-/

namespace Reputation

/-- **A peer** of the network. -/
structure Peer where
  id : String
  endpoint : Option String
deriving Repr, DecidableEq, Inhabited

namespace Peer

/-- The peer of an identity, at an unknown endpoint. -/
def named (id : String) : Peer := ⟨id, none⟩

/-- Do two values stand for one peer? -/
def same (p q : Peer) : Bool := p.id == q.id

/-- The order of peers, by identity. -/
def order (p q : Peer) : Ordering := compare p.id q.id

/-- A list of peers in ascending order; equal ones keep theirs. -/
def sort (ps : List Peer) : List Peer := ps.mergeSort fun p q => (p.order q).isLE

/-- The first peer of every identity that is not among those seen. -/
def newcomers : List String → List Peer → List Peer
  | _, [] => []
  | seen, p :: ps =>
    if seen.contains p.id then newcomers seen ps else p :: newcomers (p.id :: seen) ps

/-- The first peer of every identity. -/
def firsts (ps : List Peer) : List Peer := newcomers [] ps

/-- The identity, and the endpoint if it is known. -/
def text (p : Peer) : String :=
  match p.endpoint with
  | some e => p.id ++ " <" ++ e ++ ">"
  | none => p.id

end Peer

end Reputation
