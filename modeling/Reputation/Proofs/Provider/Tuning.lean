import Reputation.Proofs.Number.Binary
import Reputation.Proofs.Provider.Cached
import Reputation.Proofs.Provider.Growth

/-! # The parameters that a chain runs with

A computation iterates with what the parameters of its context are tuned to
(`Engine.tuned_of_settle_eq`), and the context that reaches the engine of a chain has the parameters
of the configuration, truncated or not (`Pipeline.suits_of_mem_inquiries`). So with a valid
configuration each parameter in use is the value of its text, or the default if there is no text
(`Config.Valid.runs`).

In binary64 the weight of the pre-trust then lies between zero and one. The change below which an
iteration has settled is above zero, unless it is set to not-a-number: the check refuses what is at
most zero, and not-a-number compares with nothing (`Config.Valid.epsilon_pos_iff`). -/

namespace Reputation

open Number

variable {K : Type} [Number K]

/-! ### From the parameters to the iteration -/

/-- **An iteration that runs with some tuning.** -/
structure PowerIteration.Tuned (p : PowerIteration K) (t : Engine.Tuning K) : Prop where
  limit_eq : p.limit = t.limit
  alpha_eq : p.alpha = t.alpha
  epsilon_eq : p.epsilon = t.epsilon

namespace Engine

theorem tuned_of_iteration_eq {c : Context} {m : Matrix K} {p : PowerIteration K}
    (h : iteration c m = .ok p) : p.Tuned (tuning c.params) ∧ p.progress = .notStarted := by
  unfold iteration PowerIteration.start at h
  dsimp only at h
  split_ifs at h
  cases h
  exact ⟨⟨rfl, rfl, rfl⟩, rfl⟩

/-- **A computation iterates with the parameters of its context.** -/
theorem tuned_of_settle_eq {e : Engine K} {c : Context} {o o' : Opinions K}
    {store store' : Experiences} {trust : Vec K} {p : PowerIteration K}
    (h : e.settle c o store = .ok ((trust, p), o', store')) : p.Tuned (tuning c.params) := by
  obtain ⟨⟨o₁, store₁⟩, -, h⟩ := bind_eq_ok h
  obtain ⟨m, -, h⟩ := bind_eq_ok h
  obtain ⟨p₀, hp₀, h⟩ := bind_eq_ok h
  obtain ⟨x, hx, h⟩ := bind_eq_ok h
  obtain ⟨ht, hstart⟩ := tuned_of_iteration_eq (mapError_eq_ok.mp hp₀)
  have hconverge := mapError_eq_ok.mp hx
  rw [PowerIteration.converge_eq p₀ hstart] at hconverge
  cases hconverge
  cases h
  exact ⟨ht.limit_eq, ht.alpha_eq, ht.epsilon_eq⟩

end Engine

/-! ### Valid configurations -/

namespace Config

variable {c : Config}

/-- **An iteration that runs as configured**: each parameter in use is the value of its text, or the
default if there is no text. A limit below zero is zero. -/
structure Runs (c : Config) (p : PowerIteration K) : Prop where
  limit : ∃ n, c.params.Gives Params.readInteger? Params.maxIterations Params.defaultMaxIterations n ∧
    (p.limit : ℤ) = max n 0
  alpha : c.params.Gives Params.readNumber? Params.alpha Params.defaultAlpha p.alpha
  epsilon : c.params.Gives Params.readNumber? Params.epsilon Params.defaultEpsilon p.epsilon

theorem Valid.notices_eq (h : c.Valid K) :
    (Engine.tuning c.params : Engine.Tuning K).notices = [] := by
  unfold Engine.tuning Params.integerOr Params.numberOr
  simp only [h.maxIterations.bad_eq, h.alpha.bad_eq, h.epsilon.bad_eq]
  rfl

theorem Valid.runs (h : c.Valid K) {p : PowerIteration K} (hp : p.Tuned (Engine.tuning c.params)) :
    c.Runs p := by
  refine ⟨⟨_, h.maxIterations.gives, ?_⟩, ?_, ?_⟩
  · rw [hp.limit_eq]
    exact Int.toNat_eq_max _
  · rw [hp.alpha_eq]
    exact h.alpha.gives
  · rw [hp.epsilon_eq]
    exact h.epsilon.gives

/-! ### Binary64 -/

/-- Is the change of a configuration set to not-a-number? -/
def EpsilonIsNaN (c : Config) : Prop :=
  ∃ text, c.params.get? Params.epsilon = some text ∧
    Numeral.ofString? (Text.trim text) = some .notANumber

theorem Valid.alpha_mem_float (h : c.Valid Float) {p : PowerIteration Float}
    (hp : p.Tuned (Engine.tuning c.params)) : 0.0 ≤ p.alpha ∧ p.alpha ≤ 1.0 := by
  rw [hp.alpha_eq]
  change 0.0 ≤ (c.params.numberOr Params.alpha (Params.defaultAlpha : Float)).1 ∧
    (c.params.numberOr Params.alpha (Params.defaultAlpha : Float)).1 ≤ 1.0
  unfold Params.numberOr
  rcases h.alpha.checked with hdefault | hcheck
  · rw [hdefault]
    decide +kernel
  · obtain ⟨hzero, hone⟩ := checkAlpha_eq_ok hcheck
    exact ⟨of_decide_eq_true hzero, of_decide_eq_true hone⟩

theorem Valid.epsilon_pos_iff (h : c.Valid Float) {p : PowerIteration Float}
    (hp : p.Tuned (Engine.tuning c.params)) : 0.0 < p.epsilon ↔ ¬ c.EpsilonIsNaN := by
  have hgives := (h.runs hp).epsilon
  have hpos : 0.0 < p.epsilon ↔ p.epsilon.isNaN = false := by
    rw [zero_lt_iff]
    refine and_iff_left ?_
    rw [hp.epsilon_eq]
    change ¬ (c.params.numberOr Params.epsilon (Params.defaultEpsilon : Float)).1 ≤ 0.0
    unfold Params.numberOr
    rcases h.epsilon.checked with hdefault | hcheck
    · rw [hdefault]
      decide +kernel
    · exact of_decide_eq_false (checkEpsilon_eq_ok hcheck)
  rw [hpos]
  unfold EpsilonIsNaN
  cases htext : c.params.get? Params.epsilon with
  | none =>
    rw [hgives.eq_default htext]
    exact iff_of_true (by decide +kernel) fun ⟨_, hnone, _⟩ => nomatch hnone
  | some text =>
    obtain ⟨n, hn, hx⟩ := Option.bind_eq_some_iff.mp (hgives.read_eq htext)
    rw [isNaN_ofNumeral? hx]
    simp [hn]

end Config

/-! ### The chain -/

namespace Pipeline

theorem suits_of_mem_inquiries {c : Config} {x : Context} (hx : c.Suits x) {s : State K}
    {env : Environment K} {q : Inquiry K} (hq : q ∈ (visit c x s env).inquiries) :
    c.Suits q.context ∧ q.context.store = x.store ∧ q.env.experiences = env.experiences := by
  obtain ⟨cache, own⟩ := s
  obtain ⟨-, henv, source, own', hb, -⟩ := Provider.of_mem_inquiries hq
  obtain ⟨c', source', draws', hb', hc', -⟩ :=
    Provider.bounded_spec hx (Nat.le_max_right c.maxMatrixSize.toNat 1) cache env.draws
  rw [hb] at hb'
  cases hb'
  exact ⟨hc', (Provider.bounded_keeps (congrArg Prod.fst hb)).2.1, by rw [henv]⟩

theorem exists_inquiry_of_stale (c : Config) (x : Context) {s : State K} {env : Environment K}
    (h : s.1.fresh? env.clock.read.1 c.cacheInterval = none) :
    ∃ q, (visit c x s env).inquiries = [q] := by
  obtain ⟨q, hasks⟩ := (Provider.visit_spec _ _ _ x s env).2 h
  exact ⟨q, hasks.inquiries⟩

theorem exists_settle_eq (a : Algorithm) (c : Context) (o : Opinions K) {env : Environment K}
    (hf : env.Fits c.store) : ∃ trust p o' store',
      (Engine.ofAlgorithm a).settle c o (env.experiences c.store) =
        .ok ((trust, p), o', store') := by
  obtain ⟨m, hm, p, o', store', h, -⟩ := Engine.settle_spec a c o (env.experiences c.store)
    fun _ => Experiences.countable_of_fits hf c.peers
  exact ⟨_, p, o', store', h⟩

/-- **A chain runs with the parameters that were validated.** A chain that is stale asks its engine,
nothing is told of a default, and whatever the engine kept, the computation settles if every count of
calls in the store fits. The iteration then runs as configured, with a weight between zero and one,
and with a change above zero unless this is set to not-a-number. -/
theorem chain_tuned {c : Config} (hc : c.validate Float = .ok ()) {peers : List Peer}
    {id : StoreId} {x : Context} (hx : c.context peers id = .ok x) (s : State Float)
    (env : Environment Float) :
    (s.1.fresh? env.clock.read.1 c.cacheInterval = none →
      ∃ q, (visit c x s env).inquiries = [q]) ∧
    ∀ q ∈ (visit c x s env).inquiries,
      (Engine.tuning q.context.params : Engine.Tuning Float).notices = [] ∧
      ∀ o : Opinions Float,
        (env.Fits id → ∃ trust p o' store', (Engine.ofAlgorithm c.algorithm).settle q.context o
          (q.env.experiences q.context.store) = .ok ((trust, p), o', store')) ∧
        ∀ trust p o' store', (Engine.ofAlgorithm c.algorithm).settle q.context o
            (q.env.experiences q.context.store) = .ok ((trust, p), o', store') →
          c.Runs p ∧ (0.0 ≤ p.alpha ∧ p.alpha ≤ 1.0) ∧ (0.0 < p.epsilon ↔ ¬ c.EpsilonIsNaN) := by
  have hvalid := Config.valid_of_validate hc
  obtain ⟨hsuits, rfl⟩ := Config.suits_of_context_eq hx
  refine ⟨exists_inquiry_of_stale c x, fun q hq => ?_⟩
  obtain ⟨hq, hid, hstore⟩ := suits_of_mem_inquiries hsuits hq
  refine ⟨?told, fun o => ⟨fun hf => ?settles, fun trust p o' store' h => ?runs⟩⟩
  case told =>
    rw [hq.params_eq]
    exact hvalid.notices_eq
  case settles =>
    rw [hstore]
    exact exists_settle_eq c.algorithm q.context o (hid ▸ hf)
  case runs =>
    have htuned := Engine.tuned_of_settle_eq h
    rw [hq.params_eq] at htuned
    exact ⟨hvalid.runs htuned, hvalid.alpha_mem_float htuned, hvalid.epsilon_pos_iff htuned⟩

/-- Settings with a limit below zero, a weight between blanks and some change. -/
def written (epsilon : String) : Config :=
  { Config.ofHome "a" with
    params := ((Params.empty.set Params.maxIterations "-3").set Params.alpha " 0.5 ").set
      Params.epsilon epsilon }

/-- Nothing has been experienced yet. -/
def unused : Environment Float :=
  { experiences := fun _ => .empty, roster := .ofList [], clock := .fixed ⟨9⟩, draws := .ofList [],
    notices := [] }

theorem chain_tuned_written :
    (written "1e-3").validate Float = .ok () ∧ unused.Fits 0 ∧
      ∃ x, (written "1e-3").context [.named "b"] 0 = .ok x ∧
      ∃ q, (visit (written "1e-3") x (Pipeline.start .script) unused).inquiries = [q] ∧
      ∃ trust p o' store', (Engine.ofAlgorithm .eigenTrustPlusPlus).settle q.context .empty
          (q.env.experiences q.context.store) = .ok ((trust, p), o', store') ∧
        p.limit = 0 ∧ p.alpha = 0.5 ∧ 0.0 < p.epsilon := by
  have hvalid : (written "1e-3").validate Float = .ok () := by decide +kernel
  have hfits : unused.Fits 0 := Experiences.fits_empty
  obtain ⟨x, hx, -⟩ := (written "1e-3").exists_context [.named "b"] 0
  obtain ⟨hasks, hruns⟩ := chain_tuned hvalid hx (Pipeline.start .script) unused
  obtain ⟨q, hq⟩ := hasks rfl
  have hmem : q ∈ (visit (written "1e-3") x (Pipeline.start .script) unused).inquiries := by
    rw [hq]
    exact List.mem_singleton_self q
  obtain ⟨-, hsettle⟩ := hruns q hmem
  obtain ⟨trust, p, o', store', hp⟩ := (hsettle .empty).1 hfits
  obtain ⟨hr, -, hpos⟩ := (hsettle .empty).2 trust p o' store' hp
  refine ⟨hvalid, hfits, x, hx, q, hq, trust, p, o', store', hp, ?limit, ?alpha, ?epsilon⟩
  case limit =>
    obtain ⟨n, hn, hlimit⟩ := hr.limit
    have hget : (written "1e-3").params.get? Params.maxIterations = some "-3" := by decide +kernel
    have hread : Params.readInteger? "-3" = some (-3) := by decide +kernel
    have hn3 : n = -3 := Option.some.inj ((hn.read_eq hget).symm.trans hread)
    subst hn3
    exact Int.ofNat_eq_zero.mp hlimit
  case alpha =>
    have hget : (written "1e-3").params.get? Params.alpha = some " 0.5 " := by decide +kernel
    have hread : Params.readNumber? " 0.5 " = some (0.5 : Float) := by decide +kernel
    exact Option.some.inj ((hr.alpha.read_eq hget).symm.trans hread)
  case epsilon =>
    rw [hpos]
    rintro ⟨text, htext, hnan⟩
    have hget : (written "1e-3").params.get? Params.epsilon = some "1e-3" := by decide +kernel
    have hread : Numeral.ofString? (Text.trim "1e-3") ≠ some .notANumber := by decide +kernel
    cases htext.symm.trans hget
    exact hread hnan

/-- **A change that is not a number passes the check**, and the iteration runs with it. -/
theorem epsilon_not_pos_written :
    (written "nan").validate Float = .ok () ∧
      ∃ x, (written "nan").context [.named "b"] 0 = .ok x ∧
      ∃ q, (visit (written "nan") x (Pipeline.start .script) unused).inquiries = [q] ∧
      ∃ trust p o' store', (Engine.ofAlgorithm .eigenTrustPlusPlus).settle q.context .empty
          (q.env.experiences q.context.store) = .ok ((trust, p), o', store') ∧ ¬ 0.0 < p.epsilon := by
  have hvalid : (written "nan").validate Float = .ok () := by decide +kernel
  obtain ⟨x, hx, hsuits, -⟩ := (written "nan").exists_context [.named "b"] 0
  obtain ⟨q, hq⟩ : ∃ q, (visit (written "nan") x (Pipeline.start .script) unused).inquiries = [q] :=
    exists_inquiry_of_stale (written "nan") x rfl
  obtain ⟨hsuits, -, hstore⟩ := suits_of_mem_inquiries hsuits (hq ▸ List.mem_singleton_self q)
  have hfits : unused.Fits q.context.store := Experiences.fits_empty
  obtain ⟨trust, p, o', store', hp⟩ :=
    exists_settle_eq .eigenTrustPlusPlus q.context .empty hfits
  have htuned := Engine.tuned_of_settle_eq hp
  rw [hsuits.params_eq] at htuned
  rw [← hstore] at hp
  have hnan : (written "nan").EpsilonIsNaN := ⟨"nan", by decide +kernel, by decide +kernel⟩
  have hpos := (Config.valid_of_validate hvalid).epsilon_pos_iff htuned
  exact ⟨hvalid, x, hx, q, hq, trust, p, o', store', hp, fun h => hpos.mp h hnan⟩

end Pipeline

end Reputation
