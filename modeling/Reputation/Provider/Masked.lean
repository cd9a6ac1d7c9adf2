import Reputation.Environment

/-!
# Trust for admitted peers only

`Provider.masked` takes the trust from the local peer and from every peer that a predicate does not
admit, and scales the rest. Admitted peers without any trust share it evenly; if no one is admitted,
no one has trust.
-/

namespace Reputation

open Number

/-- **What a predicate sees of a peer.** -/
structure Sighting where
  peer : Peer
  status : Status
  isHome : Bool
deriving Repr, DecidableEq, Inhabited

namespace Sighting

/-- What is seen of the peers of a context. -/
def all (roster : Roster) (c : Context) : List Sighting :=
  c.peers.map fun p => ⟨p, roster.status p, p.same c.home⟩

/-- Does the peer answer? -/
def isActive (s : Sighting) : Bool := s.status == .active

end Sighting

namespace Provider

variable {K σ : Type} [Number K]

/-- Is trust left to the peer? -/
def keeps (admits : Sighting → Bool) (s : Sighting) : Bool := admits s && !s.isHome

/-- The trust values that are left when only some peers keep theirs. -/
def maskedTrust (kept : List Bool) (v : Vec K) : Vec K :=
  let left : Vec K := ⟨List.zipWith (fun k x => if k then x else zero) kept v.entries⟩
  match kept.count true with
  | 0 => left
  | n =>
    if eq left.absSum zero then
      ⟨List.zipWith (fun k x => if k then one / ofNat n else x) kept left.entries⟩
    else left.normalize

/-- **A provider with a mask.** -/
def masked (admits : Sighting → Bool) (inner : Provider K σ) : Provider K σ :=
  fun c own env =>
    match inner c own env with
    | (.ok a, own, env) =>
      let kept := (Sighting.all env.roster a.context).map (keeps admits)
      ((Assessment.build a.context (maskedTrust kept a.trust)).mapError .error, own, env)
    | failed => failed

end Provider

end Reputation
