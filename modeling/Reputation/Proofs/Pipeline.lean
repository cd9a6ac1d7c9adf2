import Reputation.Pipeline
import Reputation.Proofs.Provider.Boosted
import Reputation.Proofs.Provider.Cached
import Reputation.Proofs.Provider.Engine
import Reputation.Proofs.Provider.Masked

/-! # Runs of a pipeline

The engine answers by distributions over bounded contexts, the cache repeats such answers, the boost
keeps them distributions and the mask leaves trust to active peers only (`serves_chain`). So every
answer of a run is `Sound`, whatever happens between the calls: `answers_sound`. -/

namespace Reputation

namespace Pipeline

variable {c : Config}

/-- A context of a configuration with no more peers than it allows. -/
def Bounded (c : Config) (x : Context) : Prop :=
  c.Suits x ∧ x.peers.length ≤ c.maxMatrixSize.toNat

/-- **A sound answer**: distinct peers, not too many, with the local one at the end; no trust below
zero, none for the local peer or one who is not active, and one in sum, or none at all if no other
peer is active. -/
structure Sound (c : Config) (roster : Roster) (a : Assessment ℚ) : Prop where
  distinct : Peer.Distinct a.context.peers
  length_le : a.context.peers.length ≤ c.maxMatrixSize.toNat
  getLast?_eq : a.context.peers.getLast? = some c.homePeer
  nonneg : ∀ p x, (p, x) ∈ a.toList → 0 ≤ x
  eq_zero : ∀ p x, (p, x) ∈ a.toList → p.id = c.home ∨ roster.status p ≠ .active → x = 0
  sum_eq_one : (∃ p ∈ a.context.peers, p.id ≠ c.home ∧ roster.status p = .active) → a.trust.sum = 1
  eq_zero_of_none : ¬ (∃ p ∈ a.context.peers, p.id ≠ c.home ∧ roster.status p = .active) →
    ∀ p x, (p, x) ∈ a.toList → x = 0

/-- **Every layer of the chain answers.** -/
theorem serves_chain (h : c.validate ℚ = .ok ()) :
    (chain c : Provider ℚ (State ℚ)).Serves c.Suits
      (Provider.Keeps (fun _ => True) (Assessment.Spreads (Bounded c)))
      fun roster a => Bounded c a.context ∧
        Provider.Masks (Provider.admitted Sighting.isActive roster a.context) a := by
  have hsize : max c.maxMatrixSize.toNat 1 = c.maxMatrixSize.toNat := by
    have := (Config.valid_of_validate h).room
    omega
  have hengine : (Engine.ofAlgorithm c.algorithm : Engine ℚ).provider.Serves (Bounded c)
      (fun _ => True) fun _ => Assessment.Spreads (Bounded c) :=
    Engine.serves_provider c.algorithm fun x hx => hx.1.alpha_mem h
  have hcached : (Provider.cached c.cacheInterval c.maxMatrixSize.toNat
      (Engine.ofAlgorithm c.algorithm : Engine ℚ).provider).Serves c.Suits
      (Provider.Keeps (fun _ => True) (Assessment.Spreads (Bounded c)))
      fun _ => Assessment.Spreads (Bounded c) := by
    refine hengine.cached c.cacheInterval fun x cache draws hx => ?_
    obtain ⟨x', source, draws', hb, hs, hl⟩ :=
      Provider.bounded_spec hx (Nat.le_max_right c.maxMatrixSize.toNat 1) cache draws
    exact ⟨x', source, draws', hb, hs, hl.trans hsize.le⟩
  exact (hcached.boosted c.boostWeight c.minCommunication).masked Sighting.isActive

/-- The mask of a pipeline admits the active peers but the local one. -/
theorem admitted_iff {x : Context} (hx : c.Suits x) (roster : Roster) (p : Peer) :
    Provider.admitted Sighting.isActive roster x p = true ↔
      p.id ≠ c.home ∧ roster.status p = .active := by
  unfold Provider.admitted Provider.keeps Sighting.isActive
  rw [hx.home_eq, Bool.and_eq_true, beq_iff_eq, Bool.not_eq_true', Bool.eq_false_iff, and_comm]
  exact Iff.and (not_congr Peer.same_iff) Iff.rfl

theorem sound_of_masks {roster : Roster} {a : Assessment ℚ} (hb : Bounded c a.context)
    (hm : Provider.Masks (Provider.admitted Sighting.isActive roster a.context) a) :
    Sound c roster a := by
  have hno : ∀ p, p.id = c.home ∨ roster.status p ≠ .active →
      Provider.admitted Sighting.isActive roster a.context p = false := by
    intro p hp
    rw [Bool.eq_false_iff, ne_eq, admitted_iff hb.1]
    tauto
  refine ⟨a.context.nodup, hb.2, hb.1.getLast?_eq, hm.nonneg,
    fun p x hx hp => hm.eq_zero p x hx (hno p hp), ?one, ?none⟩
  case one =>
    rintro ⟨p, hp, hact⟩
    exact hm.sum_eq_one ⟨p, hp, (admitted_iff hb.1 roster p).mpr hact⟩
  case none =>
    intro hnone p x hx
    have hp : p ∈ a.context.peers := (List.of_mem_zip hx).1
    refine hm.eq_zero p x hx (hno p ?_)
    by_contra hact
    rw [not_or, not_not] at hact
    exact hnone ⟨p, hp, hact⟩

theorem provider?_eq_ok {K : Type} [Number K] (h : c.validate K = .ok ()) :
    provider? c = .ok (chain c : Provider K (State K)) := by
  unfold provider?
  rw [h]
  rfl

/-- **The trust pipeline over whole runs.** A configuration that passes its checks makes a context of
every list of peers, over any store, and one chain of providers. The chain answers every call of a run
about such contexts soundly, by the statuses at the time of the call, whatever the stores, statuses,
clock readings and draws are from call to call, as long as the calls of each pair are a 64-bit count
in the store that is asked about. -/
theorem answers_sound (hv : c.validate ℚ = .ok ()) :
    (∀ peers id, ∃ x, c.context peers id = .ok x) ∧
    ∃ P : Provider ℚ (State ℚ), provider? c = .ok P ∧
      ∀ (source : Source) (calls : List (Context × Environment ℚ)),
        (∀ call ∈ calls, (∃ peers id, c.context peers id = .ok call.1) ∧
          call.2.Fits call.1.store) →
        List.Forall₂ (fun call answer => ∃ a, answer = .ok a ∧ Sound c call.2.roster a) calls
          (P.answers (start source) calls) := by
  refine ⟨fun peers id => ?_, chain c, provider?_eq_ok hv, fun source calls hcalls => ?_⟩
  · obtain ⟨x, hx, -⟩ := c.exists_context peers id
    exact ⟨x, hx⟩
  · have hstart : Provider.Keeps (fun _ => True) (Assessment.Spreads (Bounded c))
        (start source : State ℚ) := ⟨trivial, fun a t h => by cases h⟩
    have hrun := (serves_chain hv).answers hstart fun call hcall => by
      obtain ⟨⟨peers, id, hx⟩, hf⟩ := hcalls call hcall
      exact ⟨(Config.suits_of_context_eq hx).1, hf⟩
    refine hrun.imp fun call answer hanswer => ?_
    obtain ⟨a, ha, hb, hm⟩ := hanswer
    exact ⟨a, ha, sound_of_masks hb hm⟩

/-- Two calls over two stores, between which one peer left, another one came and the clock was set
back. -/
theorem answers_sound_twice :
    let c := Config.ofHome "a"
    let env (p : Peer) (t : Instant) : Environment ℚ :=
      { experiences := fun _ => .empty, roster := .ofList [(p, .active)], clock := .fixed t,
        draws := .ofList [], notices := [] }
    c.validate ℚ = .ok () ∧ ∃ P x y, provider? c = .ok P ∧
      c.context [.named "b", .named "m"] 0 = .ok x ∧
      c.context [.named "b", .named "m"] 1 = .ok y ∧ ∃ a b,
        P.answers (start .script) [(x, env (.named "b") ⟨100⟩), (y, env (.named "m") ⟨50⟩)] =
          [.ok a, .ok b] ∧
        Sound c (.ofList [(.named "b", .active)]) a ∧
        Sound c (.ofList [(.named "m", .active)]) b := by
  intro c env
  have hv : c.validate ℚ = .ok () := by decide +kernel
  obtain ⟨hc, P, hP, hrun⟩ := answers_sound hv
  obtain ⟨x, hx⟩ := hc [.named "b", .named "m"] 0
  obtain ⟨y, hy⟩ := hc [.named "b", .named "m"] 1
  have hcalls : ∀ call ∈ [(x, env (.named "b") ⟨100⟩), (y, env (.named "m") ⟨50⟩)],
      (∃ peers id, c.context peers id = .ok call.1) ∧ call.2.Fits call.1.store := by
    intro call hcall
    rcases List.mem_pair.mp hcall with rfl | rfl
    · exact ⟨⟨_, _, hx⟩, Experiences.fits_empty⟩
    · exact ⟨⟨_, _, hy⟩, Experiences.fits_empty⟩
  obtain ⟨answers, hanswers⟩ : ∃ answers, P.answers (start .script)
      [(x, env (.named "b") ⟨100⟩), (y, env (.named "m") ⟨50⟩)] = answers := ⟨_, rfl⟩
  have h := hrun .script _ hcalls
  rw [hanswers] at h
  obtain _ | ⟨⟨a, rfl, ha⟩, h⟩ := h
  obtain _ | ⟨⟨b, rfl, hb⟩, h⟩ := h
  cases h
  exact ⟨hv, P, x, y, hP, hx, hy, a, b, hanswers, ha, hb⟩

end Pipeline

end Reputation
