import Reputation.Params
import Reputation.PreTrust

/-!
# Contexts and assessments

A `Context` is what a computation of trust is about: distinct peers, one of them local, with the
name of the store of their experiences, the pre-trusted peers and the parameters. An `Assessment` is
the outcome: one trust value for each peer of a context. Both can only be built within their rules.
-/

namespace Reputation

/-- The first identity of a list that occurred before. -/
def firstRepeat? : List String → Option String := go []
where
  /-- The first identity that is among those seen or repeats. -/
  go (seen : List String) : List String → Option String
    | [] => none
    | id :: ids => if seen.contains id then some id else go (id :: seen) ids

/-- The name of a store of experiences. Who has the same name shares the store, and sees what others
do to it. -/
abbrev StoreId := Nat

/-- **The setting of a computation.** -/
structure Context where
  peers : List Peer
  home : Peer
  store : StoreId
  preTrusted : PreTrusted
  params : Params
  nodup : (peers.map Peer.id).Nodup
  home_mem : home.id ∈ peers.map Peer.id

theorem nodup_of_firstRepeat?_eq_none {ids : List String} (h : firstRepeat? ids = none) :
    ids.Nodup := by
  suffices ∀ seen, firstRepeat?.go seen ids = none → ids.Nodup ∧ ∀ id ∈ ids, id ∉ seen from
    (this [] h).1
  clear h
  induction ids with
  | nil => intro seen _; simp
  | cons id ids ih =>
    intro seen h
    unfold firstRepeat?.go at h
    split at h
    · simp at h
    · rename_i hid
      obtain ⟨hn, hd⟩ := ih _ h
      refine ⟨List.nodup_cons.mpr ⟨fun hm => hd id hm List.mem_cons_self, hn⟩, fun x hx => ?_⟩
      rcases List.mem_cons.mp hx with rfl | hx
      · simpa using hid
      · exact fun hs => hd x hx (List.mem_cons_of_mem _ hs)

namespace Context

/-- A context over peers of distinct identities, among them the local one. -/
def build (peers : List Peer) (home : Peer) (store : StoreId) (preTrusted : PreTrusted)
    (params : Params) : Except TrustError Context :=
  match h : firstRepeat? (peers.map Peer.id) with
  | some id => .error (.duplicatePeer id)
  | none =>
    if home_mem : home.id ∈ peers.map Peer.id then
      .ok { peers, home, store, preTrusted, params, nodup := nodup_of_firstRepeat?_eq_none h,
            home_mem }
    else .error (.localPeerAbsent home.id)

/-- The same setting over other peers, with the same store. -/
def withPeers (c : Context) (peers : List Peer) : Except TrustError Context :=
  build peers c.home c.store c.preTrusted c.params

/-- The position of the local peer. -/
def homeIndex (c : Context) : Nat := c.peers.findIdx c.home.same

/-- The peers other than the local one. -/
def others (c : Context) : List Peer := c.peers.filter fun p => !p.same c.home

/-- The pre-trust of the peers. -/
def preTrust {K : Type} [Number K] (c : Context) : Vec K := c.preTrusted.distribution c.peers

end Context

/-- **An assessment**: the trust in each peer of a context. -/
structure Assessment (K : Type) where
  context : Context
  trust : Vec K
  size_eq : trust.size = context.peers.length

namespace Assessment

variable {K : Type}

/-- The assessment with the given trust, one value for each peer. -/
def build (context : Context) (trust : Vec K) : Except TrustError (Assessment K) :=
  if size_eq : trust.size = context.peers.length then .ok { context, trust, size_eq }
  else .error (.trustCount trust.size context.peers.length)

/-- The peers with their trust. -/
def toList (a : Assessment K) : List (Peer × K) := List.zip a.context.peers a.trust.entries

end Assessment

end Reputation
