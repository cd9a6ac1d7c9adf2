import Reputation.Proofs.Provider.Composition
import Reputation.Proofs.Provider.Growth
import Reputation.Proofs.Provider.Yielding

/-! # Instances in a truncated context

A peer may come back at another endpoint and is the same peer still. A truncation takes pre-trusted and
drawn peers from the context that is asked about, but those that were most trusted before from the
assessment of then: they are looked up in the context by identity alone. So a peer is selected at an
old endpoint if it is selected for its rank and has moved since (`Truncation.Outdated`), and every
other peer as the instance of this round (`Truncation.instances_select`). An engine answers about the
context it gets, and the layers above it keep that context: the endpoints go through to whoever
selects (`Pipeline.chain_instances`). -/

namespace Reputation

open Number

namespace Truncation

variable {K : Type} [Number K] {c c' : Context} {previous : Option (Assessment K)} {size : ℕ}
  {p : Peer}

/-! ### Who is selected at an old endpoint -/

/-- **An outdated instance**: a peer selected for its rank, as it was in the previous assessment but
is not in the context. -/
def Outdated (c : Context) (previous : Option (Assessment K)) (size : ℕ) (p : Peer) : Prop :=
  p ∈ favourites c (ranking previous) size ∧ p ∉ c.others

/-- **What an outdated instance is**: a peer of the previous assessment with positive trust in it,
and the context has the peer at another endpoint. -/
theorem Outdated.spec (h : Outdated c previous size p) : ∃ a, previous = some a ∧
    p ∈ a.context.peers ∧ a.Trusts p ∧ ∃ r ∈ c.others, r.id = p.id ∧ r.endpoint ≠ p.endpoint := by
  obtain ⟨hf, hn⟩ := h
  obtain ⟨htop, hknown⟩ := List.mem_filter.mp (List.mem_of_mem_take hf)
  obtain ⟨r, hr, hpr⟩ := List.any_eq_true.mp (Bool.and_eq_true_iff.mp hknown).1
  have hid : r.id = p.id := (Peer.same_iff.mp hpr).symm
  have hmoved : r.endpoint ≠ p.endpoint := by
    intro he
    have hrp : r = p := by
      cases r
      cases p
      simp_all
    exact hn (hrp ▸ hr)
  obtain ⟨x, hx, rfl⟩ := List.mem_map.mp htop
  have hmem : x ∈ trusted previous := (List.mergeSort_perm _ _).subset (List.mem_of_mem_take hx)
  obtain ⟨hlist, hpos⟩ := List.mem_filter.mp hmem
  cases previous with
  | none => cases hlist
  | some a =>
    have hpeer : x.1 ∈ a.context.peers := by
      rw [← a.map_fst_toList]
      exact List.mem_map_of_mem hlist
    exact ⟨a, rfl, hpeer, ⟨x.2, hlist, hpos⟩, r, hr, hid, hmoved⟩

/-- **The instances of a truncated context**: each peer but the local one is the instance of the
context that was asked about, unless it is an outdated one; and all outdated ones are there. -/
structure Instances (c : Context) (previous : Option (Assessment K)) (size : ℕ) (ps : List Peer) :
    Prop where
  mem_iff : ∀ p ∈ ps, p.id ≠ c.home.id → (p ∈ c.others ↔ ¬ Outdated c previous size p)
  mem_of_outdated : ∀ p, Outdated c previous size p → p ∈ ps

theorem instances_select (c : Context) (previous : Option (Assessment K)) (size : ℕ)
    (source : Source) (draws : Draws K) :
    Instances c previous size (select c previous size source draws).1 := by
  have hsettled := settled_eq c previous size
  have hcandidates : Peer.Distinct (c.others.filter fun p => !(settled c previous size).any p.same) :=
    Peer.Distinct.sublist (distinct_others c) List.filter_sublist
  obtain ⟨-, -, hsub⟩ := fill_spec (size - 1 - (settled c previous size).length) hcandidates
    source draws
  have he : (select c previous size source draws).1 = settled c previous size ++
      (fill source draws (size - 1 - (settled c previous size).length)
        (c.others.filter fun p => !(settled c previous size).any p.same)).1 ++ [c.home] := rfl
  refine ⟨fun p hp hne => ⟨fun ho hout => hout.2 ho, fun hno => ?current⟩, fun p hout => ?outdated⟩
  case current =>
    rw [he, hsettled] at hp
    rcases List.mem_append.mp hp with hp | hhome
    · rcases List.mem_append.mp hp with hp | hdrawn
      · rcases List.mem_append.mp hp with hanchor | hfavourite
        · exact List.mem_of_mem_filter (List.mem_of_mem_take hanchor)
        · by_contra ho
          exact hno ⟨hfavourite, ho⟩
      · rw [← hsettled] at hdrawn
        exact List.mem_of_mem_filter (hsub hdrawn)
    · rw [List.mem_singleton.mp hhome] at hne
      exact absurd rfl hne
  case outdated =>
    rw [he, hsettled]
    exact List.mem_append_left _ (List.mem_append_left _ (List.mem_append_right _ hout.1))

end Truncation

/-! ### What is passed on -/

namespace Provider

variable {K σ : Type} [Number K] {inner : Provider K σ} {c : Context} {own : σ}
  {env : Environment K}

/-- A cache that asks about a large context passes on a truncation of it. -/
theorem visit_instances {interval : UInt64} {size : ℕ} {s : Cache K × σ}
    (h : s.1.fresh? env.clock.read.1 interval = none) (hl : max size 1 < c.peers.length)
    (inner : Provider K σ) : ∃ q, (visit interval size inner c s env).1.inquiries = [q] ∧
      Truncation.Instances c (s.1.latest.map Prod.fst) (max size 1) q.context.peers := by
  obtain ⟨cache, own⟩ := s
  obtain ⟨q, hasks⟩ := (visit_spec interval size inner c (cache, own) env).2 h
  refine ⟨q, hasks.inquiries, ?_⟩
  obtain ⟨-, -, source, own', hb, -⟩ :=
    of_mem_inquiries (hasks.inquiries ▸ List.mem_singleton_self q)
  unfold bounded at hb
  rw [if_pos hl] at hb
  obtain ⟨hd, hh, hcontext⟩ := Context.of_build_eq_ok (Prod.mk.inj hb).1
  rw [hcontext]
  exact Truncation.instances_select c _ _ _ _

end Provider

namespace Pipeline

variable {K : Type} [Number K] {cfg : Config} {c : Context} {s : State K} {env : Environment K}

/-- **A chain answers about the context that its engine was asked about**, if it was asked. -/
theorem context_eq_of_chain_eq {q : Inquiry K} (hq : (visit cfg c s env).inquiries = [q])
    {b : Assessment K} {s' : State K} {env' : Environment K}
    (h : chain cfg c s env = (.ok b, s', env')) : b.context = q.context := by
  obtain ⟨cache, own⟩ := s
  obtain ⟨hfresh, henv, source, own', hb, hi⟩ :=
    Provider.of_mem_inquiries (hq ▸ List.mem_singleton_self q)
  have hcached := Provider.cached_of_stale hfresh hb (henv ▸ hi)
  cases hanswer : q.answer with
  | error f =>
    rw [hanswer] at hcached
    have hboosted := Provider.boosted_of_error hcached cfg.boostWeight cfg.minCommunication
    have hmasked := Provider.masked_of_error hboosted Sighting.isActive
    rw [show chain cfg c (cache, own) env = _ from hmasked] at h
    cases h
  | ok a =>
    rw [hanswer] at hcached hi
    obtain ⟨-, hcontext⟩ :=
      Provider.yields_engine _ (· = q.context) q.context own _ rfl trivial _ _ _ hi
    obtain ⟨b', env₂, hchain, hctx, -⟩ := chain_of_cached hcached
    rw [hchain] at h
    cases h
    rw [hctx]
    exact hcontext a rfl

/-- **The instances that a round works with.** Where a cache asks about a context of too many peers,
the inner provider gets the instances of this context but for the outdated ones, and these it does
get. What a chain answers then is about just these instances. An outdated one was trusted in the last
assessment, and the context has the peer at another endpoint. -/
theorem chain_instances (c : Context) (env : Environment K) :
    (∀ (σ : Type) (inner : Provider K σ) (interval : UInt64) (size : ℕ) (s : Cache K × σ),
      s.1.fresh? env.clock.read.1 interval = none → max size 1 < c.peers.length →
      ∃ q, (Provider.visit interval size inner c s env).1.inquiries = [q] ∧
        Truncation.Instances c (s.1.latest.map Prod.fst) (max size 1) q.context.peers) ∧
    (∀ (cfg : Config) (s : State K), s.1.fresh? env.clock.read.1 cfg.cacheInterval = none →
      max cfg.maxMatrixSize.toNat 1 < c.peers.length → ∃ q, (visit cfg c s env).inquiries = [q] ∧
        Truncation.Instances c (s.1.latest.map Prod.fst) (max cfg.maxMatrixSize.toNat 1)
          q.context.peers ∧
        ∀ b s' env', chain cfg c s env = (.ok b, s', env') → b.context = q.context) ∧
    ∀ (previous : Option (Assessment K)) (size : ℕ) (p : Peer),
      Truncation.Outdated c previous size p → ∃ a, previous = some a ∧ p ∈ a.context.peers ∧
        a.Trusts p ∧ ∃ r ∈ c.others, r.id = p.id ∧ r.endpoint ≠ p.endpoint := by
  refine ⟨fun σ inner interval size s h hl => Provider.visit_instances h hl inner,
    fun cfg s h hl => ?_, fun previous size p hout => hout.spec⟩
  obtain ⟨q, hq, hinst⟩ :=
    Provider.visit_instances h hl (Engine.ofAlgorithm cfg.algorithm).provider
  exact ⟨q, hq, hinst, fun b s' env' hb => context_eq_of_chain_eq hq hb⟩

/-- Eleven peers, of whom one has moved. -/
def moved : Context where
  peers := ⟨"b", some "new"⟩ :: ["a", "c", "d", "e", "f", "g", "h", "i", "j", "k"].map Peer.named
  home := .named "a"
  store := 0
  preTrusted := .ofList []
  params := .defaults
  nodup := by decide
  home_mem := by decide

/-- What was computed before it moved. -/
def unmoved : Assessment ℚ where
  context := ⟨[.named "a", ⟨"b", some "old"⟩], .named "a", 0, .ofList [], .defaults, by decide,
    by decide⟩
  trust := ⟨[0, 1]⟩
  size_eq := rfl

theorem outdated_moved : Truncation.Outdated moved (some unmoved) 10 ⟨"b", some "old"⟩ := by
  constructor <;> decide +kernel

theorem chain_instances_moved :
    let env : Environment ℚ :=
      { experiences := fun _ => .empty, roster := .ofList [], clock := .fixed ⟨9⟩,
        draws := .ofList [], notices := [] }
    let s : Cache ℚ × List (Except Failure (Assessment ℚ)) :=
      (⟨some (unmoved, ⟨0⟩), .script⟩, [.ok unmoved])
    s.1.fresh? env.clock.read.1 5 = none ∧ max 10 1 < moved.peers.length ∧
      ∃ q, (Provider.visit 5 10 Provider.scripted moved s env).1.inquiries = [q] ∧
        ∀ p ∈ q.context.peers, p.id ≠ "a" → (p ∈ moved.others ↔
          ¬ Truncation.Outdated moved (some unmoved) 10 p) := by
  intro env s
  obtain ⟨q, hq, hinst⟩ := (chain_instances moved env).1 _ Provider.scripted 5 10 s rfl (by decide)
  exact ⟨rfl, by decide, q, hq, hinst.mem_iff⟩

/-- **A truncation may pass on an endpoint that this round does not have.** -/
theorem not_current_moved :
    let env : Environment ℚ :=
      { experiences := fun _ => .empty, roster := .ofList [], clock := .fixed ⟨9⟩,
        draws := .ofList [], notices := [] }
    ∃ q, (Provider.visit 5 10 Provider.scripted moved
        (⟨some (unmoved, ⟨0⟩), .script⟩, [.ok unmoved]) env).1.inquiries = [q] ∧
      ⟨"b", some "old"⟩ ∈ q.context.peers ∧ ⟨"b", some "old"⟩ ∉ moved.peers := by
  intro env
  have hstale : Cache.fresh? ⟨some (unmoved, ⟨0⟩), .script⟩ env.clock.read.1 5 = none := rfl
  have hlarge : max 10 1 < moved.peers.length := by decide
  obtain ⟨q, hq, hinst⟩ := Provider.visit_instances
    (s := (⟨some (unmoved, ⟨0⟩), .script⟩, [.ok unmoved])) hstale hlarge Provider.scripted
  exact ⟨q, hq, hinst.mem_of_outdated _ outdated_moved, by decide⟩

end Pipeline

end Reputation
