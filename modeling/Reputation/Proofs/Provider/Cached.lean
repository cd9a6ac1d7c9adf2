import Reputation.Proofs.Config
import Reputation.Proofs.Provider.Serving
import Reputation.Proofs.Provider.Truncation
import Reputation.Provider.Cached

/-! # Answers of a cache

What a cache repeats was a good answer when it was given, whatever the clock shows since. A context
that is passed on has at most as many peers as the cache allows, and it still suits the configuration
(`bounded_spec`); nothing but the peers changes (`bounded_keeps`). So a cache answers every question
if the inner provider answers those about bounded contexts: `Provider.Serves.cached`. -/

namespace Reputation

namespace Provider

/-- **The context that is passed on** is bounded. -/
theorem bounded_spec {K : Type} [Number K] {cfg : Config} {c : Context} (hc : cfg.Suits c)
    {size : ℕ} (hsize : 1 ≤ size) (cache : Cache K) (draws : Draws K) :
    ∃ c' source draws', bounded size c cache draws = (.ok c', source, draws') ∧ cfg.Suits c' ∧
      c'.peers.length ≤ size := by
  unfold bounded
  split
  · obtain ⟨hd, hl, hlast⟩ :=
      Truncation.select_spec c (cache.latest.map Prod.fst) hsize cache.source draws
    obtain ⟨c', hc', hs, hps⟩ := hc.withPeers hd hlast
    exact ⟨c', _, _, Prod.ext hc' rfl, hs, hps ▸ hl⟩
  · next hl => exact ⟨c, _, _, rfl, hc, Nat.le_of_not_lt hl⟩

/-- **A truncation keeps everything but the peers.** -/
theorem bounded_keeps {K : Type} [Number K] {size : ℕ} {c c' : Context} {cache : Cache K}
    {draws : Draws K} (h : (bounded size c cache draws).1 = .ok c') :
    c'.home = c.home ∧ c'.store = c.store ∧ c'.preTrusted = c.preTrusted ∧ c'.params = c.params := by
  unfold bounded at h
  split at h
  · obtain ⟨hd, hh, rfl⟩ := Context.of_build_eq_ok h
    exact ⟨rfl, rfl, rfl, rfl⟩
  · cases h
    exact ⟨rfl, rfl, rfl, rfl⟩

/-- What is passed on is about the same store, in which the same calls are counted. -/
theorem fits_of_bounded {K : Type} [Number K] {size : ℕ} {c c' : Context} {cache : Cache K}
    {draws : Draws K} (h : (bounded size c cache draws).1 = .ok c') {env env' : Environment K}
    (he : env'.experiences = env.experiences) (hf : env.Fits c.store) : env'.Fits c'.store := by
  obtain ⟨-, hstore, -⟩ := bounded_keeps h
  unfold Environment.Fits
  rw [he, hstore]
  exact hf

variable {σ : Type} {K : Type} [Number K] {inner : Provider K σ} {asks asks' : Context → Prop}
  {inv : σ → Prop} {good : Assessment K → Prop}

/-- The answer that a cache keeps is a good one. -/
def Keeps (inv : σ → Prop) (good : Assessment K → Prop) (s : Cache K × σ) : Prop :=
  inv s.2 ∧ ∀ a t, s.1.latest = some (a, t) → good a

omit [Number K] in
theorem Keeps.good_of_fresh {s : Cache K × σ} (h : Keeps inv good s) {now : Instant}
    {interval : UInt64} {a : Assessment K} (ha : s.1.fresh? now interval = some a) : good a := by
  unfold Cache.fresh? at ha
  split at ha
  · next b t hb =>
    split at ha
    · cases ha; exact h.2 a t hb
    · cases ha
  · cases ha

/-- **A cache gives good answers only.** -/
theorem Serves.cached (h : inner.Serves asks' inv fun _ => good) (interval : UInt64) {size : ℕ}
    (hb : ∀ c (cache : Cache K) draws, asks c → ∃ c' source draws',
      bounded (max size 1) c cache draws = (.ok c', source, draws') ∧ asks' c') :
    (cached interval size inner).Serves asks (Keeps inv good) fun _ => good := by
  rintro c ⟨cache, own⟩ env hc hf hk
  obtain ⟨hi, hg⟩ := hk
  unfold Provider.cached
  simp only
  cases hfresh : cache.fresh? env.clock.read.1 interval with
  | some a =>
    have ha := Keeps.good_of_fresh (s := (cache, own)) ⟨hi, hg⟩ hfresh
    exact ⟨a, (cache, own), { env with clock := env.clock.read.2 }, rfl, ⟨hi, hg⟩, rfl, ha⟩
  | none =>
    obtain ⟨c', source, draws', hbd, hc'⟩ := hb c cache env.draws hc
    simp only [hbd]
    have hfits : ({ env with clock := env.clock.read.2, draws := draws' } : Environment K).Fits
        c'.store := fits_of_bounded (congrArg Prod.fst hbd) rfl hf
    obtain ⟨a, own', env', hp, hi', hr, hga⟩ := h c' own _ hc' hfits hi
    rw [hp]
    refine ⟨a, _, env', rfl, ⟨hi', fun b t hbt => ?_⟩, hr, hga⟩
    cases hbt
    exact hga

end Provider

end Reputation
