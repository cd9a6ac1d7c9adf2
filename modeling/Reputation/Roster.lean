import Std.Data.ExtTreeMap
import Reputation.Peer
import Reputation.Failure

/-!
# The roster of peers

What the local node knows about the connections of its peers: `Roster.status` is the status of the
last update of an identity, `Roster.peers` lists everyone in ascending order.
-/

namespace Reputation

/-- **The connection of a peer**, as the local node sees it. -/
inductive Status where
  | active
  | busy
  | inactive
  | failure
  /-- Never seen. -/
  | unknown
deriving Repr, DecidableEq, Inhabited

namespace Status

/-- Every status. -/
def all : List Status := [active, busy, inactive, failure, unknown]

/-- The word for a status. -/
def name : Status → String
  | active => "active"
  | busy => "busy"
  | inactive => "inactive"
  | failure => "failure"
  | unknown => "unknown"

/-- The status of exactly this name. -/
def ofName? (s : String) : Option Status := all.find? fun status => status.name == s

/-- Reads a status; ASCII capitals count as small letters. -/
def read (s : String) : Except TrustError Status :=
  match ofName? (s.map Char.toLower) with
  | some status => .ok status
  | none => .error (.unknownStatus s)

end Status

/-- **The known peers and their statuses**, by identity. -/
structure Roster where
  entries : Std.ExtTreeMap String (Peer × Status)

namespace Roster

/-- Nobody is known. -/
def empty : Roster := ⟨∅⟩

instance : Inhabited Roster := ⟨empty⟩

/-- Sets the status of a peer, who replaces the one of the same identity. -/
def update (r : Roster) (p : Peer) (s : Status) : Roster := ⟨r.entries.insert p.id (p, s)⟩

/-- The status of a peer, unknown for one who was never seen. -/
def status (r : Roster) (p : Peer) : Status :=
  match r.entries[p.id]? with
  | some (_, s) => s
  | none => .unknown

/-- Everyone, in ascending order, with their statuses. -/
def toList (r : Roster) : List (Peer × Status) := r.entries.toList.map Prod.snd

/-- The peers in ascending order. -/
def peers (r : Roster) : List Peer := r.toList.map Prod.fst

/-- The peers of one status in ascending order. -/
def withStatus (r : Roster) (s : Status) : List Peer :=
  (r.toList.filter fun entry => entry.2 == s).map Prod.fst

/-- The peers who answer. -/
def active (r : Roster) : List Peer := r.withStatus .active

/-- Number of known peers. -/
def size (r : Roster) : Nat := r.entries.size

/-- The roster after updates in order. -/
def ofList (updates : List (Peer × Status)) : Roster :=
  updates.foldl (fun r (p, s) => r.update p s) empty

end Roster

end Reputation
