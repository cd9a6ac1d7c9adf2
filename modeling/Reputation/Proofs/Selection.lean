import Reputation.Proofs.Pipeline
import Reputation.Proofs.Provider.Yielding
import Reputation.Proofs.Selector.Bootstrap
import Reputation.Proofs.Selector.Weighted

/-! # Selection over computed trust

The selectors of a pipeline work on an answer of its chain, which may be an old one: the statuses
they see are those at the time of the selection. Every answer `Fits` the configuration: its context
has the configured local and pre-trusted peers, and the mask has left no trust to the local peer
(`Pipeline.yields_chain`). So the local peer is never selected, several peers are distinct, trusted
or pre-trusted, and reach the pre-trusted peers again (`Pipeline.selects_several`); one peer is a
trusted one if there is one, and else a pre-trusted one (`Pipeline.selects_one`). Together:
`Pipeline.selects`. -/

namespace Reputation

open Number

namespace Config

/-- Is it the identity of a configured pre-trusted peer other than the local one? -/
def Anchor (c : Config) (id : String) : Prop := id ∈ c.preTrusted ∧ id ≠ c.home

/-- A context with the configured local and pre-trusted peers. -/
structure Owns (c : Config) (x : Context) : Prop where
  home_eq : x.home = c.homePeer
  preTrusted_eq : x.preTrusted = c.preTrustedPeers

variable {c : Config} {x : Context}

theorem owns_of_context_eq {ps : List Peer} {id : StoreId} (h : c.context ps id = .ok x) :
    c.Owns x := by
  obtain ⟨hd, hh, rfl⟩ := Context.of_build_eq_ok h
  exact ⟨rfl, rfl⟩

theorem mem_preTrustedPeers {id : String} :
    id ∈ c.preTrustedPeers.peers.map Peer.id ↔ id ∈ c.preTrusted := by
  have hid : (c.preTrusted.map Peer.named).map Peer.id = c.preTrusted := by
    rw [List.map_map]
    exact List.map_id _
  unfold preTrustedPeers PreTrusted.ofList
  rw [Peer.mem_map_firsts, hid]

/-- The peers whom the context counts as pre-trusted are the configured ones. -/
theorem Owns.contains_iff (h : c.Owns x) (p : Peer) :
    x.preTrusted.contains p = true ↔ p.id ∈ c.preTrusted := by
  rw [PreTrusted.contains_iff, h.preTrusted_eq, mem_preTrustedPeers]

/-- The anchors of a context are the configured ones. -/
theorem Owns.anchor_iff (h : c.Owns x) {id : String} :
    c.Anchor id ↔ ∃ p ∈ Selector.anchors x, p.id = id := by
  unfold Anchor
  rw [← mem_preTrustedPeers, List.mem_map]
  constructor
  · rintro ⟨⟨p, hp, rfl⟩, hne⟩
    refine ⟨p, Selector.mem_anchors.mpr ⟨?_, ?_⟩, rfl⟩
    · rw [h.preTrusted_eq]; exact hp
    · rw [h.home_eq]; exact hne
  · rintro ⟨p, hp, rfl⟩
    obtain ⟨hp, hne⟩ := Selector.mem_anchors.mp hp
    rw [h.preTrusted_eq] at hp
    rw [h.home_eq] at hne
    exact ⟨⟨p, hp, rfl⟩, hne⟩

end Config

theorem Roster.status_congr (r : Roster) {p q : Peer} (h : p.id = q.id) : r.status p = r.status q := by
  unfold Roster.status
  rw [h]

namespace Pipeline

variable {K : Type} [Number K] {c : Config} {roster : Roster} {a : Assessment K}

/-- **An assessment to select from**: of the configured peers, and without positive trust in the
local one. -/
structure Selectable (c : Config) (a : Assessment K) : Prop where
  owns : c.Owns a.context
  home_not_trusted : ∀ p : Peer, p.id = c.home → ¬ a.Trusts p

/-- **The chain of a configuration** answers by assessments to select from. -/
theorem yields_chain (hK : Signs K) (c : Config) :
    (chain c : Provider K (State K)).Yields c.Owns
      (Provider.Keeps (fun _ => True) fun a => c.Owns a.context) (Selectable c) := by
  have hcached : (Provider.cached c.cacheInterval c.maxMatrixSize.toNat
      (Engine.ofAlgorithm c.algorithm : Engine K).provider).Yields c.Owns
      (Provider.Keeps (fun _ => True) fun a => c.Owns a.context) fun a => c.Owns a.context := by
    refine (Provider.yields_engine _ c.Owns).cached _ _ fun x x' cache draws hx hx' => ?_
    obtain ⟨hhome, -, hpre, -⟩ := Provider.bounded_keeps hx'
    exact ⟨hhome.trans hx.home_eq, hpre.trans hx.preTrusted_eq⟩
  have hchain := (hcached.boosted c.boostWeight c.minCommunication).masked hK Sighting.isActive
  intro x own env hx hi answer own' env' hp
  obtain ⟨hi', hg⟩ := hchain x own env hx hi answer own' env' hp
  refine ⟨hi', fun a ha => ⟨(hg a ha).1, fun p hp => (hg a ha).2 p ?_⟩⟩
  rw [(hg a ha).1.home_eq]
  exact hp

/-! ### Several peers -/

/-- **A selection of several peers**: distinct ones without the local peer, all trusted ones or as many
as allowed before some pre-trusted ones. A pre-trusted peer who answers is among them if there
is one, all who answer if the local peer is pre-trusted, and all pre-trusted ones if none answers. -/
structure Several (c : Config) (roster : Roster) (a : Assessment K) (ps : List Peer) : Prop where
  distinct : Peer.Distinct ps
  home_not_mem : c.home ∉ ps.map Peer.id
  parts : ∃ chosen added, ps = chosen ++ added ∧
    chosen.length = min c.maxSelected.toNat (a.toList.countP fun x => lt zero x.2) ∧
    (∀ p ∈ chosen, a.Trusts p) ∧ ∀ p ∈ added, c.Anchor p.id
  some_active : (∃ p : Peer, c.Anchor p.id ∧ roster.status p = .active) →
    ∃ p ∈ ps, c.Anchor p.id ∧ roster.status p = .active
  all_active : c.home ∈ c.preTrusted → ∀ p : Peer, c.Anchor p.id → roster.status p = .active →
    p.id ∈ ps.map Peer.id
  all_anchors : (¬ ∃ p : Peer, c.Anchor p.id ∧ roster.status p = .active) →
    ∀ id, c.Anchor id → id ∈ ps.map Peer.id

theorem exists_activeAnchor {x : Context} (hx : c.Owns x) {p : Peer} (hp : c.Anchor p.id)
    (hact : roster.status p = .active) : ∃ q ∈ Selector.activeAnchors x roster, q.id = p.id := by
  obtain ⟨q, hq, hqp⟩ := hx.anchor_iff.mp hp
  refine ⟨q, Selector.mem_activeAnchors.mpr ⟨hq, ?_⟩, hqp⟩
  rw [roster.status_congr hqp]
  exact hact

theorem anchor_of_mem_activeAnchors {x : Context} (hx : c.Owns x) {q : Peer}
    (hq : q ∈ Selector.activeAnchors x roster) : c.Anchor q.id ∧ roster.status q = .active := by
  obtain ⟨hq, hact⟩ := Selector.mem_activeAnchors.mp hq
  exact ⟨hx.anchor_iff.mpr ⟨q, hq, rfl⟩, hact⟩

theorem selects_several (hK : Signs K) (ha : Selectable c a) (s : Source × Source)
    (env : Environment K) : Several c env.roster a ((selector c a).several s env).1 := by
  obtain ⟨source, own⟩ := s
  have hx := ha.owns
  obtain ⟨hd, hlen, htrust⟩ := Selector.weighted_several hK c.maxSelected.toNat a own env
  have hr := (Selector.weighted_roster c.maxSelected.toNat a own env).2
  -- the local peer is not among the trusted, so nobody is filtered out
  have hchosen : (((Selector.weighted c.maxSelected.toNat a).several own env).1.filter
      fun p => !p.same a.context.home) =
      ((Selector.weighted c.maxSelected.toNat a).several own env).1 := by
    refine List.filter_eq_self.mpr fun p hp => ?_
    rw [Bool.not_eq_true', Bool.eq_false_iff, ne_eq, Peer.same_iff, hx.home_eq]
    exact fun hhome => ha.home_not_trusted p hhome (htrust p hp)
  have hre := Selector.bootstrap_several a.context source hd hr
  rw [hchosen] at hre
  obtain ⟨added, hps, hadded⟩ := hre.parts
  have hanchor : ∀ p ∈ added, c.Anchor p.id :=
    fun p hp => hx.anchor_iff.mpr ⟨p, hadded p hp, rfl⟩
  refine ⟨hre.distinct, ?home, ⟨_, added, hps, ?_, htrust, hanchor⟩, ?some, ?all, ?anchors⟩
  case home =>
    intro hhome
    obtain ⟨p, hp, hpid⟩ := List.mem_map.mp hhome
    change p ∈ ((Selector.bootstrap a.context _).several (source, own) env).1 at hp
    rw [hps] at hp
    rcases List.mem_append.mp hp with hp | hp
    · exact ha.home_not_trusted p hpid (htrust p hp)
    · exact (hanchor p hp).2 hpid
  · rw [hlen, List.countP_eq_length_filter]
    rfl
  case some =>
    rintro ⟨p, hp, hact⟩
    obtain ⟨q, hq, -⟩ := exists_activeAnchor hx hp hact
    obtain ⟨r, hr, hrid⟩ := hre.some_active ⟨q, hq⟩
    obtain ⟨hra, hract⟩ := anchor_of_mem_activeAnchors hx hr
    obtain ⟨p', hp', hpr⟩ := List.mem_map.mp hrid
    refine ⟨p', hp', hpr ▸ hra, ?_⟩
    rw [env.roster.status_congr hpr]
    exact hract
  case all =>
    intro hhome p hp hact
    obtain ⟨q, hq, hqp⟩ := exists_activeAnchor hx hp hact
    have hpre : a.context.preTrusted.contains a.context.home = true := by
      rw [hx.contains_iff, hx.home_eq]
      exact hhome
    rw [← hqp]
    exact hre.all_active hpre q hq
  case anchors =>
    intro hno id hid
    obtain ⟨q, hq, rfl⟩ := hx.anchor_iff.mp hid
    refine hre.all_anchors (fun ⟨r, hr⟩ => hno ⟨r, ?_⟩) q hq
    exact anchor_of_mem_activeAnchors hx hr

/-! ### One peer -/

/-- **A selection of one peer**: never the local one. It is a trusted peer if there is one, else a
pre-trusted one, and one who answers if there is one. -/
structure One (c : Config) (roster : Roster) (a : Assessment K) (o : Option Peer) : Prop where
  ne_home : ∀ p, o = some p → p.id ≠ c.home
  trusted : (∃ p, a.Trusts p) → ∃ p, o = some p ∧ a.Trusts p
  active : (¬ ∃ p, a.Trusts p) → (∃ p : Peer, c.Anchor p.id ∧ roster.status p = .active) →
    ∃ p, o = some p ∧ c.Anchor p.id ∧ roster.status p = .active
  anchor : (¬ ∃ p, a.Trusts p) → (∃ id, c.Anchor id) → ∃ p, o = some p ∧ c.Anchor p.id
  eq_none_iff : o = none ↔ (¬ ∃ p, a.Trusts p) ∧ ¬ ∃ id, c.Anchor id

theorem selects_one (hK : Signs K) (ha : Selectable c a) (s : Source × Source)
    (env : Environment K) : One c env.roster a ((selector c a).one s env).1 := by
  obtain ⟨source, own⟩ := s
  have hx := ha.owns
  obtain ⟨hsome, hnone⟩ := Selector.weighted_one hK c.maxSelected.toNat a own env
  have hr := (Selector.weighted_roster c.maxSelected.toNat a own env).1
  by_cases htrust : ∃ p, a.Trusts p
  · obtain ⟨p, hp, hpt⟩ := hsome htrust
    have hone : ((selector c a).one (source, own) env).1 = some p :=
      Selector.bootstrap_one_of_some hp
    rw [hone]
    refine ⟨?_, fun _ => ⟨p, rfl, hpt⟩, fun hno => absurd htrust hno, fun hno => absurd htrust hno,
      ?_⟩
    · intro q hq hhome
      cases hq
      exact ha.home_not_trusted p hhome hpt
    · exact iff_of_false (fun h => by cases h) fun h => h.1 htrust
  · obtain ⟨hact, hanchor, hempty⟩ :=
      Selector.bootstrap_one_of_none a.context source (hnone htrust) hr
    have hany : (∃ id, c.Anchor id) → ∃ p ∈ Selector.anchors a.context,
        ((selector c a).one (source, own) env).1 = some p := by
      rintro ⟨id, hid⟩
      obtain ⟨q, hq, -⟩ := hx.anchor_iff.mp hid
      exact hanchor ⟨q, hq⟩
    have hnobody : (¬ ∃ id, c.Anchor id) → ((selector c a).one (source, own) env).1 = none := by
      intro hno
      refine hempty ?_
      rintro ⟨q, hq⟩
      exact hno ⟨q.id, hx.anchor_iff.mpr ⟨q, hq, rfl⟩⟩
    refine ⟨?home, fun h => absurd h htrust, fun _ => ?active, fun _ hex => ?anchor, ?none⟩
    case home =>
      intro p hp hhome
      by_cases hex : ∃ id, c.Anchor id
      · obtain ⟨q, hq, hone⟩ := hany hex
        rw [hone] at hp
        cases hp
        exact (hx.anchor_iff.mpr ⟨p, hq, rfl⟩ : c.Anchor p.id).2 hhome
      · have hno : ((selector c a).one (source, own) env).1 = none := hnobody hex
        rw [hno] at hp
        cases hp
    case active =>
      rintro ⟨p, hp, hpact⟩
      obtain ⟨q, hq, -⟩ := exists_activeAnchor hx hp hpact
      obtain ⟨r, hr, hone⟩ := hact ⟨q, hq⟩
      exact ⟨r, hone, anchor_of_mem_activeAnchors hx hr⟩
    case anchor =>
      obtain ⟨q, hq, hone⟩ := hany hex
      exact ⟨q, hone, hx.anchor_iff.mpr ⟨q, hq, rfl⟩⟩
    case none =>
      constructor
      · intro hno
        refine ⟨htrust, fun hex => ?_⟩
        obtain ⟨q, -, hone⟩ := hany hex
        rw [hno] at hone
        cases hone
      · rintro ⟨-, hno⟩
        exact hnobody hno

/-- **Selection over computed trust.** For every answer that the chain of a valid configuration
gives in a run, whatever the statuses and draws are at the time of a selection, its selectors choose
one peer and several peers as they should. -/
theorem selects (hK : Signs K) (hv : c.validate K = .ok ()) :
    ∃ P : Provider K (State K), provider? c = .ok P ∧
      ∀ (source : Source) (calls : List (Context × Environment K)),
        (∀ call ∈ calls, ∃ peers id, c.context peers id = .ok call.1) →
        ∀ a, .ok a ∈ P.answers (start source) calls →
        ∀ (s : Source × Source) (env : Environment K),
          Several c env.roster a ((selector c a).several s env).1 ∧
          One c env.roster a ((selector c a).one s env).1 := by
  refine ⟨chain c, provider?_eq_ok hv, fun source calls hcalls a ha s env => ?_⟩
  have hstart : Provider.Keeps (fun _ => True) (fun a : Assessment K => c.Owns a.context)
      (start source : State K) := ⟨trivial, fun a t h => by cases h⟩
  have hselect : Selectable c a := by
    refine (yields_chain hK c).answers hstart (fun call hcall => ?_) ha
    obtain ⟨peers, id, hx⟩ := hcalls call hcall
    exact Config.owns_of_context_eq hx
  exact ⟨selects_several hK hselect s env, selects_one hK hselect s env⟩

/-- A selection when the only pre-trusted peer has left. -/
theorem selects_offline :
    let c := { Config.ofHome "a" with preTrusted := ["b"] }
    let env : Environment ℚ :=
      { experiences := fun _ => .empty, roster := .ofList [(.named "m", .active)],
        clock := .fixed ⟨100⟩, draws := .ofList [], notices := [] }
    c.validate ℚ = .ok () ∧ ∃ P x a, provider? c = .ok P ∧
      c.context [.named "b", .named "m"] 0 = .ok x ∧ .ok a ∈ P.answers (start .script) [(x, env)] ∧
      "b" ∈ ((selector c a).several (.script, .script) env).1.map Peer.id ∧
      ∃ p, ((selector c a).one (.script, .script) env).1 = some p ∧ p.id ≠ "a" := by
  intro c env
  have hv : c.validate ℚ = .ok () := by decide +kernel
  have hP : provider? c = .ok (chain c : Provider ℚ (State ℚ)) := provider?_eq_ok hv
  obtain ⟨x, hx, hsuits, -⟩ := c.exists_context [.named "b", .named "m"] 0
  have hstart : Provider.Keeps (fun _ => True) (Assessment.Spreads (Bounded c))
      (start .script : State ℚ) := ⟨trivial, fun a t h => by cases h⟩
  have hcalls : ∀ call ∈ [(x, env)], c.Suits call.1 ∧ call.2.Fits call.1.store := by
    intro call hcall
    rw [List.mem_singleton.mp hcall]
    exact ⟨hsuits, Experiences.fits_empty⟩
  obtain ⟨a, ha⟩ : ∃ a, .ok a ∈ (chain c).answers (start .script) [(x, env)] := by
    obtain ⟨answers, hanswers⟩ : ∃ answers, (chain c).answers (start .script) [(x, env)] = answers :=
      ⟨_, rfl⟩
    have hrun := (serves_chain hv).answers hstart hcalls
    rw [hanswers] at hrun ⊢
    obtain _ | ⟨⟨a, rfl, -⟩, -⟩ := hrun
    exact ⟨a, List.mem_cons_self⟩
  obtain ⟨P, hP', hselects⟩ := selects signs_rat hv
  rw [hP] at hP'
  cases hP'
  have hcontexts : ∀ call ∈ [(x, env)], ∃ peers id, c.context peers id = .ok call.1 := by
    intro call hcall
    rw [List.mem_singleton.mp hcall]
    exact ⟨_, _, hx⟩
  obtain ⟨hseveral, hone⟩ := hselects .script [(x, env)] hcontexts a ha (.script, .script) env
  have hb : c.Anchor "b" := by
    constructor <;> decide
  have hoffline : ¬ ∃ p : Peer, c.Anchor p.id ∧ env.roster.status p = .active := by
    rintro ⟨p, ⟨hp, -⟩, hact⟩
    have hp : p.id = "b" := by simpa [c] using hp
    rw [env.roster.status_congr (q := .named "b") hp] at hact
    revert hact
    decide +kernel
  have hsome : ∃ p, ((selector c a).one (.script, .script) env).1 = some p := by
    refine Option.ne_none_iff_exists'.mp fun hno => ?_
    exact (hone.eq_none_iff.mp hno).2 ⟨"b", hb⟩
  obtain ⟨p, hp⟩ := hsome
  exact ⟨hv, chain c, x, a, hP, hx, ha, hseveral.all_anchors hoffline "b" hb, p, hp,
    hone.ne_home p hp⟩

end Pipeline

end Reputation
