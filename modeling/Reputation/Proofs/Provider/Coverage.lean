import Mathlib.Data.Finset.Card
import Reputation.Proofs.Provider.Composition
import Reputation.Proofs.Provider.Growth
import Reputation.Proofs.Selection

/-! # Which peers an answer is about

A configuration makes a context of a list of peers and adds the local one. The first answer of its
chain is about all of them, or, if they are too many, about as many as allowed. No pre-trusted peer
is left out then unless these alone are too many: `Config.covers_of_bounded`,
`Pipeline.chain_covers`. This holds wherever positive trust is ordered; that the local peer has no
trust is shown in exact arithmetic (`Pipeline.getLast?_of_chain_eq`). -/

namespace Reputation

open Number

namespace Provider

/-- **What is passed on**: the context itself, or a composition of it. -/
theorem bounded_cases {K : Type} [Number K] (hK : Ordered K) {x x' : Context} {size : ℕ}
    (hsize : 1 ≤ size) {cache : Cache K} {draws draws' : Draws K} {source : Source}
    (h : bounded (max size 1) x cache draws = (.ok x', source, draws')) :
    (x.peers.length ≤ size ∧ x' = x) ∨ (size < x.peers.length ∧
      ∃ drawn, Truncation.Composes x (cache.latest.map Prod.fst) size x'.peers drawn) := by
  rw [max_eq_left hsize] at h
  unfold bounded at h
  split at h
  · next hlarge =>
    obtain ⟨drawn, hcomp, -⟩ := Truncation.select_composes hK hsize hlarge
      (cache.latest.map Prod.fst) cache.source draws
    obtain ⟨hd, hh, rfl⟩ := Context.of_build_eq_ok (Prod.mk.inj h).1
    exact .inr ⟨hlarge, drawn, hcomp⟩
  · next hsmall =>
    cases h
    exact .inl ⟨Nat.le_of_not_lt hsmall, rfl⟩

end Provider

namespace Config

variable {c : Config} {x : Context}

/-- **A list of identities covers the known ones**: it has no other ones, none of them twice, and the
local one at the end. If not too many are known, it has all of them, and otherwise as many as
allowed. Pre-trusted ones are missing only if there are more of them than places beside the local
peer. -/
structure Covers (c : Config) (known : Finset String) (ids : List String) : Prop where
  nodup : ids.Nodup
  subset : ids.toFinset ⊆ known
  getLast?_eq : ids.getLast? = some c.home
  eq_known : known.card ≤ c.maxMatrixSize.toNat → ids.toFinset = known
  length_eq : c.maxMatrixSize.toNat < known.card → ids.length = c.maxMatrixSize.toNat
  preTrusted_subset : (c.preTrusted.toFinset.erase c.home).card ≤ c.maxMatrixSize.toNat - 1 →
    ∀ id ∈ c.preTrusted, id ∈ ids

/-! ### The context -/

/-- **A context has the given peers and the local one.** -/
theorem mem_context {ps : List Peer} {store : StoreId} (h : c.context ps store = .ok x)
    {id : String} : id ∈ x.peers.map Peer.id ↔ id = c.home ∨ id ∈ ps.map Peer.id := by
  obtain ⟨hd, hh, rfl⟩ := Context.of_build_eq_ok h
  unfold contextPeers
  rw [List.map_append, List.mem_append, Peer.mem_map_newcomers, List.map_singleton,
    List.mem_singleton, List.mem_singleton]
  change (id ∈ ps.map Peer.id ∧ ¬ id = c.home) ∨ id = c.home ↔ _
  tauto

/-- Beside the local peer there are at most as many pre-trusted ones as configured. -/
theorem Owns.length_anchors_le (h : c.Owns x) :
    (x.others.filter x.preTrusted.contains).length ≤
      (c.preTrusted.toFinset.erase c.home).card := by
  have hdistinct : ((x.others.filter x.preTrusted.contains).map Peer.id).Nodup :=
    Peer.Distinct.sublist (Truncation.distinct_others x) List.filter_sublist
  rw [← List.length_map Peer.id, ← List.toFinset_card_of_nodup hdistinct]
  refine Finset.card_le_card fun id hid => ?_
  obtain ⟨p, hp, rfl⟩ := List.mem_map.mp (List.mem_toFinset.mp hid)
  obtain ⟨hp, hpre⟩ := List.mem_filter.mp hp
  have hne := Truncation.id_ne_home_of_mem_others hp
  rw [h.home_eq] at hne
  exact Finset.mem_erase.mpr ⟨hne, List.mem_toFinset.mpr ((h.contains_iff p).mp hpre)⟩

/-- **Pre-trusted peers who have room are not cut off.** -/
theorem Owns.mem_of_composes {K : Type} [Number K] (h : c.Owns x)
    {previous : Option (Assessment K)} {size : ℕ} {ps drawn : List Peer}
    (hcomp : Truncation.Composes x previous size ps drawn)
    (hfew : (c.preTrusted.toFinset.erase c.home).card ≤ size - 1) {p : Peer} (hp : p ∈ x.others)
    (hpre : p.id ∈ c.preTrusted) : p ∈ ps := by
  have hanchor : p ∈ Truncation.anchors x size := by
    unfold Truncation.anchors
    rw [List.take_of_length_le (h.length_anchors_le.trans hfew)]
    exact List.mem_filter.mpr ⟨hp, (h.contains_iff p).mpr hpre⟩
  obtain ⟨ranked, -, hparts, -⟩ := hcomp.parts
  rw [hparts, List.append_assoc, List.append_assoc]
  exact List.mem_append_left _ hanchor

/-- **What is passed on covers the context.** -/
theorem covers_of_bounded {K : Type} [Number K] (hK : Ordered K) (hx : c.Owns x)
    (hroom : 1 ≤ c.maxMatrixSize.toNat) (hpre : ∀ id ∈ c.preTrusted, id ∈ x.peers.map Peer.id)
    {cache : Cache K} {draws draws' : Draws K} {source : Source} {x' : Context}
    (h : Provider.bounded (max c.maxMatrixSize.toNat 1) x cache draws = (.ok x', source, draws'))
    (hx' : c.Suits x') : c.Covers (x.peers.map Peer.id).toFinset (x'.peers.map Peer.id) := by
  have hcard : (x.peers.map Peer.id).toFinset.card = x.peers.length := by
    rw [List.toFinset_card_of_nodup x.nodup, List.length_map]
  have hlast : (x'.peers.map Peer.id).getLast? = some c.home := by
    rw [List.getLast?_map, hx'.getLast?_eq]
    rfl
  rcases Provider.bounded_cases hK hroom h with ⟨hsmall, rfl⟩ | ⟨hlarge, drawn, hcomp⟩
  · refine ⟨x'.nodup, subset_rfl, hlast, fun _ => rfl, fun hlarge => ?_, fun _ => hpre⟩
    omega
  · refine ⟨x'.nodup, ?subset, hlast, fun hsmall => ?small, fun _ => ?large,
      fun hfew id hid => ?preTrusted⟩
    case subset =>
      intro id hid
      obtain ⟨p, hp, rfl⟩ := List.mem_map.mp (List.mem_toFinset.mp hid)
      exact List.mem_toFinset.mpr (hcomp.mem p hp)
    case small => omega
    case large => rw [List.length_map, hcomp.length]
    case preTrusted =>
      obtain ⟨p, hp, rfl⟩ := List.mem_map.mp (hpre id hid)
      by_cases hhome : p.id = c.home
      · rw [hhome]
        exact List.mem_of_getLast? hlast
      · have hother : p ∈ x.others := by
          refine List.mem_filter.mpr ⟨hp, ?_⟩
          rw [Bool.not_eq_true', Bool.eq_false_iff, ne_eq, Peer.same_iff, hx.home_eq]
          exact hhome
        exact List.mem_map_of_mem (hx.mem_of_composes hcomp hfew hother hid)

end Config

namespace Pipeline

variable {c : Config}

/-- **The first answer of a chain covers the context** it is asked about, whatever is drawn. -/
theorem chain_covers {K : Type} [Number K] (hK : Ordered K) (hv : c.validate K = .ok ())
    {ps : List Peer} {id : StoreId} {x : Context} (hx : c.context ps id = .ok x)
    (hpre : ∀ id ∈ c.preTrusted, id ∈ ps.map Peer.id) (source : Source) {env : Environment K}
    (hf : env.Fits id) : ∃ a s env', chain c x (start source) env = (.ok a, s, env') ∧
      c.Covers (x.peers.map Peer.id).toFinset (a.context.peers.map Peer.id) := by
  obtain ⟨hsuits, rfl⟩ := Config.suits_of_context_eq hx
  have hroom : 1 ≤ c.maxMatrixSize.toNat := by
    have := (Config.valid_of_validate hv).room
    omega
  have hmem : ∀ id ∈ c.preTrusted, id ∈ x.peers.map Peer.id :=
    fun id hid => (Config.mem_context hx).mpr (.inr (hpre id hid))
  obtain ⟨x', source', draws', hb, hsuits', -⟩ := Provider.bounded_spec hsuits
    (Nat.le_max_right c.maxMatrixSize.toNat 1) (Cache.empty source) env.draws
  have hcovers := Config.covers_of_bounded hK (Config.owns_of_context_eq hx) hroom hmem hb hsuits'
  -- the cache is empty, so the engine is asked
  have hfits : ({ env with clock := env.clock.read.2, draws := draws' } : Environment K).Fits
      x'.store := Provider.fits_of_bounded (congrArg Prod.fst hb) rfl hf
  obtain ⟨r, o', env₁, hr, hcontext, -⟩ := Engine.provider_spec c.algorithm x' .empty hfits
  obtain ⟨a, env₂, hchain, ha, -⟩ := chain_of_cached (Provider.cached_of_stale rfl hb hr)
  refine ⟨a, _, env₂, hchain, ?_⟩
  rw [ha, hcontext]
  exact hcovers

/-- **The local peer comes last, without trust**, in the first answer of a chain. -/
theorem getLast?_of_chain_eq (hv : c.validate ℚ = .ok ()) {ps : List Peer} {id : StoreId}
    {x : Context} (hx : c.context ps id = .ok x) {source : Source} {env env' : Environment ℚ}
    (hf : env.Fits id) {a : Assessment ℚ} {s : State ℚ}
    (h : chain c x (start source) env = (.ok a, s, env')) :
    a.toList.getLast? = some (c.homePeer, 0) := by
  obtain ⟨hsuits, rfl⟩ := Config.suits_of_context_eq hx
  have hstart : Provider.Keeps (fun _ => True) (Assessment.Spreads (Bounded c))
      (start source : State ℚ) := ⟨trivial, fun a t h => by cases h⟩
  obtain ⟨a', s', env₁, hserved, -, -, hbounded, hmasks⟩ :=
    serves_chain hv x (start source) env hsuits hf hstart
  rw [hserved] at h
  cases h
  have hsound := sound_of_masks hbounded hmasks
  have hlast : a.toList.getLast?.map Prod.fst = some c.homePeer := by
    rw [← List.getLast?_map, a.map_fst_toList]
    exact hsound.getLast?_eq
  obtain ⟨⟨p, t⟩, hpt, rfl⟩ := Option.map_eq_some_iff.mp hlast
  have hzero : t = 0 := hsound.eq_zero _ t (List.mem_of_getLast? hpt) (.inl rfl)
  rw [hpt, hzero]

end Pipeline

end Reputation
