import Reputation.Context
import Reputation.Proofs.Linear.Tabulated
import Reputation.Proofs.Peer

/-! # Contexts and assessments

Distinct peers, among them the local one, make a context (`Context.build_eq_ok`). The peers of a
context are distinct, so the trust of an assessment is always a table over them
(`Assessment.exists_tabulate`). -/

namespace Reputation

open Number

theorem firstRepeat?_eq_none {ids : List String} (h : ids.Nodup) : firstRepeat? ids = none := by
  suffices ∀ seen, (∀ id ∈ ids, id ∉ seen) → firstRepeat?.go seen ids = none from
    this [] fun _ _ => List.not_mem_nil
  induction ids with
  | nil => exact fun _ _ => rfl
  | cons id ids ih =>
    intro seen hs
    obtain ⟨hn, hd⟩ := List.nodup_cons.mp h
    have hid : ¬ seen.contains id = true := by
      rw [List.contains_iff_mem]
      exact hs id List.mem_cons_self
    unfold firstRepeat?.go
    rw [if_neg hid]
    refine ih hd (id :: seen) fun x hx hxs => ?_
    rcases List.mem_cons.mp hxs with rfl | hxs
    · exact hn hx
    · exact hs x (List.mem_cons_of_mem _ hx) hxs

namespace Context

theorem build_eq_ok {peers : List Peer} {home : Peer} (hd : Peer.Distinct peers)
    (hh : home.id ∈ peers.map Peer.id) (store : StoreId) (preTrusted : PreTrusted)
    (params : Params) : build peers home store preTrusted params =
      .ok ⟨peers, home, store, preTrusted, params, hd, hh⟩ := by
  unfold build
  split
  · next h => rw [firstRepeat?_eq_none hd] at h; cases h
  · rw [dif_pos hh]

/-- **A context that was built** is made of what it was built from. -/
theorem of_build_eq_ok {peers : List Peer} {home : Peer} {store : StoreId}
    {preTrusted : PreTrusted} {params : Params} {c : Context}
    (h : build peers home store preTrusted params = .ok c) :
    ∃ hd hh, c = ⟨peers, home, store, preTrusted, params, hd, hh⟩ := by
  unfold build at h
  split at h
  · cases h
  · split at h
    · cases h
      exact ⟨_, _, rfl⟩
    · cases h

/-- Three peers, of whom the first is at home and pre-trusted. -/
def trio (params : Params) : Context where
  peers := [.named "a", .named "b", .named "m"]
  home := .named "a"
  store := 0
  preTrusted := .ofList [.named "a"]
  params := params
  nodup := by decide
  home_mem := by decide

end Context

namespace Assessment

variable {K : Type}

theorem build_eq_ok {c : Context} {trust : Vec K} (h : trust.size = c.peers.length) :
    build c trust = .ok ⟨c, trust, h⟩ := by
  unfold build
  rw [dif_pos h]

theorem of_build_eq_ok {c : Context} {trust : Vec K} {a : Assessment K}
    (h : build c trust = .ok a) : a.context = c ∧ a.trust = trust := by
  unfold build at h
  split at h
  · cases h
    exact ⟨rfl, rfl⟩
  · cases h

/-- **The trust of an assessment is a table** over its peers. -/
theorem exists_tabulate [Number K] (a : Assessment K) :
    ∃ f, a.trust = Vec.tabulate a.context.peers f := by
  have hd : a.context.peers.Nodup := List.Nodup.of_map Peer.id a.context.nodup
  have hs := a.size_eq
  refine ⟨fun p => a.trust.entries.getD (a.context.peers.idxOf p) zero, ?_⟩
  ext1
  refine List.ext_getElem (hs.trans (List.length_map _).symm) fun i hi hi' => ?_
  have hp : i < a.context.peers.length := by rwa [Vec.entries_tabulate, List.length_map] at hi'
  simp only [Vec.entries_tabulate, List.getElem_map, hd.idxOf_getElem i hp]
  rw [List.getD_eq_getElem?_getD, List.getElem?_eq_getElem hi, Option.getD_some]

theorem toList_eq {a : Assessment K} {f : Peer → K}
    (h : a.trust = Vec.tabulate a.context.peers f) :
    a.toList = a.context.peers.map fun p => (p, f p) := by
  have hz := List.zip_map' (l := a.context.peers) (f := id) (g := f)
  rw [List.map_id] at hz
  unfold toList
  rw [h, Vec.entries_tabulate, hz]
  rfl

theorem mem_toList_iff {a : Assessment K} {f : Peer → K}
    (h : a.trust = Vec.tabulate a.context.peers f) {p : Peer} {x : K} :
    (p, x) ∈ a.toList ↔ p ∈ a.context.peers ∧ x = f p := by
  rw [toList_eq h, List.mem_map]
  constructor
  · rintro ⟨q, hq, hqx⟩
    cases hqx
    exact ⟨hq, rfl⟩
  · rintro ⟨hp, rfl⟩
    exact ⟨p, hp, rfl⟩

theorem map_fst_toList [Number K] (a : Assessment K) :
    a.toList.map Prod.fst = a.context.peers := by
  obtain ⟨f, hf⟩ := a.exists_tabulate
  rw [toList_eq hf, List.map_map]
  exact List.map_id _

/-- **Is the trust in a peer positive?** -/
def Trusts [Number K] (a : Assessment K) (p : Peer) : Prop :=
  ∃ x, (p, x) ∈ a.toList ∧ lt zero x = true

end Assessment

end Reputation
