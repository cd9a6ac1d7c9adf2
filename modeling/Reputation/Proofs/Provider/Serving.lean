import Mathlib.Data.List.Forall2
import Reputation.Environment
import Reputation.Proofs.Experience.Store
import Reputation.Proofs.Linear.Distribution

/-! # Providers that always answer

A provider `Serves` some contexts if it answers every question about one of them, whatever the
environment holds, keeps an invariant of its private state and leaves the statuses of the peers
alone. Then it answers every call of a run, in which the environment changes arbitrarily between the
calls: `Serves.answers`. -/

namespace Reputation

namespace Environment

variable {K : Type}

/-- In one of the stores, the calls of every pair are a 64-bit count. -/
def Fits (env : Environment K) (id : StoreId) : Prop :=
  ∀ p q, ((env.experiences id).peek p q).Fits

@[simp] theorem experiences_keep_self (env : Environment K) (id : StoreId) (s : Experiences) :
    (env.keep id s).experiences id = s := if_pos rfl

theorem experiences_keep_of_ne (env : Environment K) {id other : StoreId} (h : other ≠ id)
    (s : Experiences) : (env.keep id s).experiences other = env.experiences other := if_neg h

end Environment

/-- The answer is a distribution over the peers of an admissible context. -/
def Assessment.Spreads (asks : Context → Prop) (a : Assessment ℚ) : Prop :=
  asks a.context ∧ a.trust.IsDistribution

namespace Provider

variable {K σ : Type} {P : Provider K σ} {asks : Context → Prop} {inv : σ → Prop}
  {good : Roster → Assessment K → Prop}

/-- **A run**: the answers to some calls in turn, each in an environment of its own. -/
def answers (P : Provider K σ) : σ → List (Context × Environment K) →
    List (Except Failure (Assessment K))
  | _, [] => []
  | own, (c, env) :: calls =>
    let (answer, own, _) := P c own env
    answer :: answers P own calls

/-- **A provider that always answers** with a good assessment. -/
def Serves (P : Provider K σ) (asks : Context → Prop) (inv : σ → Prop)
    (good : Roster → Assessment K → Prop) : Prop :=
  ∀ c own (env : Environment K), asks c → env.Fits c.store → inv own →
    ∃ a own' env', P c own env = (.ok a, own', env') ∧ inv own' ∧ env'.roster = env.roster ∧
      good env.roster a

/-- **Every call of a run is answered.** -/
theorem Serves.answers (h : P.Serves asks inv good) {own : σ} (hi : inv own)
    {calls : List (Context × Environment K)}
    (hc : ∀ call ∈ calls, asks call.1 ∧ call.2.Fits call.1.store) :
    List.Forall₂ (fun call answer => ∃ a, answer = .ok a ∧ good call.2.roster a) calls
      (P.answers own calls) := by
  induction calls generalizing own with
  | nil => exact .nil
  | cons call calls ih =>
    obtain ⟨c, env⟩ := call
    obtain ⟨hca, hf⟩ := hc (c, env) List.mem_cons_self
    obtain ⟨a, own', env', hp, hi', -, hg⟩ := h c own env hca hf hi
    unfold Provider.answers
    rw [hp]
    exact .cons ⟨a, rfl, hg⟩ (ih hi' fun call hcall => hc call (List.mem_cons_of_mem _ hcall))

end Provider

end Reputation
