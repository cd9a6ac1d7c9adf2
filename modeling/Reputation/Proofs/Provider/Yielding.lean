import Reputation.Proofs.EigenTrust.Engine
import Reputation.Proofs.Provider.Boosted
import Reputation.Proofs.Provider.Cached
import Reputation.Proofs.Provider.Masked
import Reputation.Proofs.Provider.Visits

/-! # What providers answer if they answer

A provider `Yields` good assessments if it gives no other ones; it may fail. Then every answer of a
run is good, whatever else happens in it (`Provider.Yields.answers`). An engine answers about the
context it is asked about, a cache about one with the same local and pre-trusted peers, and a boost
and a mask about that of the inner answer; this needs no exact arithmetic and no counts that fit. -/

namespace Reputation

open Number

namespace Provider

variable {K σ : Type} {P inner : Provider K σ} {asks : Context → Prop} {inv : σ → Prop}
  {good : Assessment K → Prop}

/-- **A provider that gives good answers only**, if it answers. -/
def Yields (P : Provider K σ) (asks : Context → Prop) (inv : σ → Prop)
    (good : Assessment K → Prop) : Prop :=
  ∀ c own (env : Environment K), asks c → inv own → ∀ answer own' env',
    P c own env = (answer, own', env') → inv own' ∧ ∀ a, answer = .ok a → good a

/-- **Every answer of a run is good.** -/
theorem Yields.answers (h : P.Yields asks inv good) {own : σ} (hi : inv own)
    {calls : List (Context × Environment K)} (hc : ∀ call ∈ calls, asks call.1) {a : Assessment K}
    (ha : .ok a ∈ P.answers own calls) : good a := by
  induction calls generalizing own with
  | nil => cases ha
  | cons call calls ih =>
    obtain ⟨c, env⟩ := call
    obtain ⟨hi', hg⟩ := h c own env (hc (c, env) List.mem_cons_self) hi _ _ _ rfl
    unfold Provider.answers at ha
    rcases List.mem_cons.mp ha with ha | ha
    · exact hg a ha.symm
    · exact ih hi' (fun call hcall => hc call (List.mem_cons_of_mem _ hcall)) ha

variable [Number K]

/-! ### The layers -/

/-- An engine answers about the context it is asked about. -/
theorem yields_engine (e : Engine K) (asks : Context → Prop) :
    e.provider.Yields asks (fun _ => True) fun a => asks a.context := by
  intro c o env hc _ answer o' env' hp
  refine ⟨trivial, fun a ha => ?_⟩
  subst ha
  unfold Engine.provider at hp
  split at hp
  · next x a' notices o'' store' hcompute =>
    cases hp
    rw [Engine.compute_eq_settle] at hcompute
    obtain ⟨x, -, hx⟩ := bind_eq_ok hcompute
    obtain ⟨b, hb, hx⟩ := bind_eq_ok hx
    cases hx
    have hbuild : Assessment.build c x.1.1 = .ok a := mapError_eq_ok.mp hb
    rw [(Assessment.of_build_eq_ok hbuild).1]
    exact hc
  · cases hp

/-- A cache repeats good answers, and asks about what it makes of a context. -/
theorem Yields.cached {asks' : Context → Prop} (h : inner.Yields asks' inv good)
    (interval : UInt64) (size : ℕ)
    (hb : ∀ c c' (cache : Cache K) draws, asks c →
      (bounded (max size 1) c cache draws).1 = .ok c' → asks' c') :
    (cached interval size inner).Yields asks (Keeps inv good) good := by
  rintro c ⟨cache, own⟩ env hc ⟨hi, hg⟩ answer own' env' hp
  cases hfresh : cache.fresh? env.clock.read.1 interval with
  | some a =>
    rw [cached_of_fresh hfresh] at hp
    cases hp
    refine ⟨⟨hi, hg⟩, fun b hb => ?_⟩
    cases hb
    exact Keeps.good_of_fresh (s := (cache, own)) ⟨hi, hg⟩ hfresh
  | none =>
    obtain ⟨c', source, draws, answer, own', left, hbd, hin⟩ :=
      exists_inquiry size c cache env inner own
    have hc' : asks' c' := hb c c' cache env.draws hc (by rw [hbd])
    obtain ⟨hi', hg'⟩ := h c' own _ hc' hi answer own' left hin
    rw [cached_of_stale hfresh hbd hin] at hp
    cases hp
    refine ⟨⟨hi', fun a t ha => ?_⟩, hg'⟩
    cases answer with
    | error failure => exact hg a t ha
    | ok b =>
      cases ha
      exact hg' a rfl

/-- A boost keeps the context of an answer. -/
theorem Yields.boosted {ok : Context → Prop} (h : inner.Yields asks inv fun a => ok a.context)
    (weight : UInt32) (least : UInt64) :
    (boosted weight least inner).Yields asks inv fun a => ok a.context := by
  intro c own env hc hi answer own' env' hp
  obtain ⟨answer₁, own₁, env₁, hin⟩ : ∃ answer₁ own₁ env₁, inner c own env = (answer₁, own₁, env₁) :=
    ⟨_, _, _, rfl⟩
  obtain ⟨hi₁, hg⟩ := h c own env hc hi answer₁ own₁ env₁ hin
  cases answer₁ with
  | error failure =>
    rw [boosted_of_error hin] at hp
    cases hp
    exact ⟨hi₁, fun b hb => by cases hb⟩
  | ok a =>
    have ha : ok a.context := hg a rfl
    by_cases hoff : weight = 0 ∨ least = 0
    · rw [boosted_of_off hin hoff] at hp
      cases hp
      refine ⟨hi₁, fun b hb => ?_⟩
      cases hb
      exact ha
    · rw [boosted_of_on hin hoff] at hp
      cases hp
      refine ⟨hi₁, fun b hb => ?_⟩
      cases hb
      exact ha

/-- A mask keeps the context of an answer, and leaves no positive trust to its local peer. -/
theorem Yields.masked (hK : Signs K) {ok : Context → Prop}
    (h : inner.Yields asks inv fun a => ok a.context) (admits : Sighting → Bool) :
    (masked admits inner).Yields asks inv fun a =>
      ok a.context ∧ ∀ p, p.id = a.context.home.id → ¬ a.Trusts p := by
  intro c own env hc hi answer own' env' hp
  obtain ⟨answer₁, own₁, env₁, hin⟩ : ∃ answer₁ own₁ env₁, inner c own env = (answer₁, own₁, env₁) :=
    ⟨_, _, _, rfl⟩
  obtain ⟨hi₁, hg⟩ := h c own env hc hi answer₁ own₁ env₁ hin
  cases answer₁ with
  | error failure =>
    rw [masked_of_error hin] at hp
    cases hp
    exact ⟨hi₁, fun b hb => by cases hb⟩
  | ok a =>
    obtain ⟨f, hf⟩ := a.exists_tabulate
    rw [masked_eq hin hf admits fun _ _ => rfl] at hp
    cases hp
    refine ⟨hi₁, fun b hb => ?_⟩
    cases hb
    refine ⟨hg a rfl, fun p hp htrusts => ?_⟩
    obtain ⟨x, hx, hpos⟩ := htrusts
    obtain ⟨-, rfl⟩ := (Assessment.mem_toList_iff rfl).mp hx
    rw [maskedValue_not_pos hK _ _ (admitted_home admits env'.roster hp)] at hpos
    cases hpos

end Provider

end Reputation
