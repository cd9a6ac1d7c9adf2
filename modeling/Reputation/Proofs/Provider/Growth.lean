import Reputation.Pipeline
import Reputation.Proofs.EigenTrust.Renewal
import Reputation.Proofs.Experience.Growth
import Reputation.Proofs.Provider.Boosted
import Reputation.Proofs.Provider.Cached
import Reputation.Proofs.Provider.Masked
import Reputation.Proofs.Provider.Visits

/-! # What computing trust leaves in the stores

An engine asks for the experience of every peer of its context with every other one, so the store of
the context grows by these pairs (`Engine.provider_spec`). A cache passes a question on or repeats an
answer. A boost asks for the experiences of the local peer with those whom the answer is about, in the
store of the answer: if the cache repeats an old answer, this may be another store than the one that
is asked about. A mask looks at statuses only. Together: `Pipeline.chain_spec`. -/

namespace Reputation

open Number

/-- **The pairs of two peers of a context.** -/
def Context.Pairs (c : Context) (k : Pair) : Prop :=
  ∃ i ∈ c.peers, ∃ j ∈ c.peers, i.id ≠ j.id ∧ k = Experiences.key i j

/-- The pairs of the local peer and another one. -/
def Context.HomePairs (c : Context) (k : Pair) : Prop :=
  ∃ j ∈ c.others, k = Experiences.key c.home j

variable {K : Type} [Number K]

/-! ### All stores -/

namespace Environment

omit [Number K]

variable {env env' env'' : Environment K} {new new' : StoreId → Pair → Prop}

/-- **Stores that grew**, each by empty experiences of some pairs. -/
def Grows (env env' : Environment K) (new : StoreId → Pair → Prop) : Prop :=
  ∀ id, (env.experiences id).Grows (env'.experiences id) (new id)

theorem Grows.refl (env : Environment K) : env.Grows env fun _ _ => False :=
  fun id => .refl (env.experiences id)

theorem Grows.trans (h : env.Grows env' new) (h' : env'.Grows env'' new') :
    env.Grows env'' fun id k => new id k ∨ new' id k := fun id => (h id).trans (h' id)

theorem Grows.congr (h : env.Grows env' new) (hn : ∀ id k, new id k ↔ new' id k) :
    env.Grows env' new' := fun id => (h id).congr (hn id)

/-- If one store grows, the others stay. -/
theorem grows_keep (env : Environment K) {id : StoreId} {s : Experiences} {news : Pair → Prop}
    (h : (env.experiences id).Grows s news) :
    env.Grows (env.keep id s) fun i k => i = id ∧ news k := by
  intro i
  by_cases hi : i = id
  · subst hi
    rw [experiences_keep_self]
    exact h.congr fun k => (and_iff_right rfl).symm
  · rw [experiences_keep_of_ne env hi]
    exact (Experiences.Grows.refl _).congr fun k => by simp [hi]

end Environment

/-- **What was experienced is conserved** in every store that there can be, as long as the calls of
each pair in it are a 64-bit count. -/
def Environment.Conserves (env env' : Environment K) (new : StoreId → Pair → Prop) : Prop :=
  ∀ id, (env.experiences id).Arises K → env.Fits id →
    (env.experiences id).Conserves (env'.experiences id) (new id)

theorem Environment.Grows.conserves {env env' : Environment K} {new : StoreId → Pair → Prop}
    (h : env.Grows env' new) : env.Conserves env' new :=
  fun id hs hf => (h id).conserves hs.acquainted hf

/-! ### The engine -/

theorem LocalTrust.grows_consult (store : Experiences) (observer : Peer) (peers : List Peer) :
    store.Grows (consult store observer peers) fun k =>
      ∃ p ∈ partners observer peers, k = Experiences.key observer p := by
  unfold consult
  exact Experiences.Grows.foldl (fun s p => s.grows_touch observer p) store _

namespace Engine

theorem refresh_store_eq {e : Engine K} {c : Context} {o o' : Opinions K}
    {store store' : Experiences} (h : e.refresh c o store = .ok (o', store')) :
    store' = c.peers.foldl (fun store p => LocalTrust.consult store p c.peers) store := by
  unfold refresh LocalTrust.updateAll at h
  rw [LocalTrust.updates_eq] at h
  obtain ⟨x, hx, h⟩ := bind_eq_ok h
  cases hx
  dsimp only at h
  split at h
  · obtain ⟨o₁, -, h⟩ := bind_eq_ok h
    cases h
    rfl
  · cases h
    rfl

/-- **A computation asks about every pair of the context**, and about nothing else. -/
theorem grows_of_compute_eq {e : Engine K} {c : Context} {o o' : Opinions K}
    {store store' : Experiences} {answer : Assessment K × List Notice}
    (h : e.compute c o store = .ok (answer, o', store')) : store.Grows store' c.Pairs := by
  rw [refresh_store_eq (refresh_eq_of_compute_eq h)]
  have hall := Experiences.Grows.foldl
    (fun store p => LocalTrust.grows_consult store p c.peers) store c.peers
  refine hall.congr fun k => exists_congr fun i => and_congr_right fun _ => ?_
  constructor
  · rintro ⟨j, hj, hk⟩
    obtain ⟨hj, hij⟩ := List.mem_filter.mp hj
    exact ⟨j, hj, fun heq => by simp [Peer.same, heq] at hij, hk⟩
  · rintro ⟨j, hj, hij, hk⟩
    exact ⟨j, List.mem_filter.mpr ⟨hj, by simpa [Peer.same] using Ne.symm hij⟩, hk⟩

theorem provider_spec (a : Algorithm) (c : Context) (o : Opinions K) {env : Environment K}
    (hf : env.Fits c.store) : ∃ r o' env', (ofAlgorithm a).provider c o env = (.ok r, o', env') ∧
      r.context = c ∧ env.Grows env' fun id k => id = c.store ∧ c.Pairs k := by
  obtain ⟨r, notices, o', store', h, hc, -, -⟩ := compute_spec a c o (env.experiences c.store)
    fun _ => Experiences.countable_of_fits hf c.peers
  refine ⟨r, o', (env.tellAll notices).keep c.store store', ?_, hc,
    (env.tellAll notices).grows_keep (grows_of_compute_eq h)⟩
  unfold provider
  rw [h]

end Engine

/-! ### The layers -/

namespace Provider

variable {σ : Type} {inner : Provider K σ} {c : Context} {own own' : σ} {env env' : Environment K}
  {a : Assessment K}

theorem boosted_spec (h : inner c own env = (.ok a, own', env')) (weight : UInt32)
    (least : UInt64) : ∃ b env₂, boosted weight least inner c own env = (.ok b, own', env₂) ∧
      b.context = a.context ∧ env'.Grows env₂ fun id k =>
        (weight ≠ 0 ∧ least ≠ 0) ∧ id = a.context.store ∧ a.context.HomePairs k := by
  by_cases hoff : weight = 0 ∨ least = 0
  · refine ⟨a, env', boosted_of_off h hoff, rfl, (Environment.Grows.refl _).congr fun id k => ?_⟩
    tauto
  · have hgrows := Experiences.Grows.foldl
      (fun (s : Experiences) p => s.grows_touch a.context.home p)
      (env'.experiences a.context.store) a.context.others
    refine ⟨_, _, boosted_of_on h hoff, rfl, (env'.grows_keep hgrows).congr fun id k => ?_⟩
    unfold Context.HomePairs
    tauto

theorem masked_spec (h : inner c own env = (.ok a, own', env')) (admits : Sighting → Bool) :
    ∃ b, masked admits inner c own env = (.ok b, own', env') ∧ b.context = a.context := by
  obtain ⟨f, hf⟩ := a.exists_tabulate
  exact ⟨_, masked_eq h hf admits fun _ _ => rfl, rfl⟩

end Provider

/-! ### The chain -/

namespace Pipeline

/-- The visit that a call of a chain pays to its cache. -/
def visit (c : Config) (x : Context) (s : State K) (env : Environment K) : Visit K :=
  (Provider.visit c.cacheInterval c.maxMatrixSize.toNat
    (Engine.ofAlgorithm c.algorithm).provider x s env).1

/-- **The cache of a chain**: a repeated answer leaves the stores alone, a new one lets the store that
is asked about grow by the pairs of the context that was passed on. -/
theorem cached_spec (c : Config) (x : Context) (s : State K) {env : Environment K}
    (hf : env.Fits x.store) : ∃ a s' env', Provider.cached c.cacheInterval c.maxMatrixSize.toNat
        (Engine.ofAlgorithm c.algorithm).provider x s env = (.ok a, s', env') ∧
      (visit c x s env).answer = .ok a ∧
      (∀ b, s.1.fresh? env.clock.read.1 c.cacheInterval = some b →
        (visit c x s env).inquiries = [] ∧ a = b) ∧
      (∀ q ∈ (visit c x s env).inquiries, q.context.store = x.store) ∧
      env.Grows env' fun id k =>
        ∃ q ∈ (visit c x s env).inquiries, id = q.context.store ∧ q.context.Pairs k := by
  obtain ⟨cache, own⟩ := s
  unfold visit
  cases h : cache.fresh? env.clock.read.1 c.cacheInterval with
  | some a =>
    rw [Provider.visit_of_fresh h, Provider.cached_of_fresh h]
    refine ⟨a, _, _, rfl, rfl, fun b hb => ⟨rfl, Option.some.inj hb⟩, nofun,
      (Environment.Grows.refl env).congr fun id k => ?_⟩
    simp
  | none =>
    obtain ⟨c', source, draws, hb⟩ := Provider.bounded_eq_ok c.maxMatrixSize.toNat x cache env.draws
    obtain ⟨-, hstore, -⟩ := Provider.bounded_keeps (congrArg Prod.fst hb)
    have hfits : ({ env with clock := env.clock.read.2, draws } : Environment K).Fits c'.store :=
      Provider.fits_of_bounded (congrArg Prod.fst hb) rfl hf
    obtain ⟨r, o', env', hr, -, hgrows⟩ := Engine.provider_spec c.algorithm c' own hfits
    rw [Provider.visit_of_stale h hb hr, Provider.cached_of_stale h hb hr]
    refine ⟨r, _, env', rfl, rfl, nofun, fun q hq => ?_, hgrows.congr fun id k => ?_⟩
    · rw [List.mem_singleton.mp hq]
      exact hstore
    · simp

/-- **The layers above the cache** answer about the same context, and only a boost looks into a
store, which is that of the answer. -/
theorem chain_of_cached {c : Config} {x : Context} {s s' : State K} {env env' : Environment K}
    {a : Assessment K} (h : Provider.cached c.cacheInterval c.maxMatrixSize.toNat
      (Engine.ofAlgorithm c.algorithm).provider x s env = (.ok a, s', env')) :
    ∃ b env₂, chain c x s env = (.ok b, s', env₂) ∧ b.context = a.context ∧
      env'.Grows env₂ fun id k => (c.boostWeight ≠ 0 ∧ c.minCommunication ≠ 0) ∧
        id = a.context.store ∧ a.context.HomePairs k := by
  obtain ⟨b, env₂, hboosted, hba, hgrows⟩ :=
    Provider.boosted_spec h c.boostWeight c.minCommunication
  obtain ⟨r, hmasked, hrb⟩ := Provider.masked_spec hboosted Sighting.isActive
  exact ⟨r, env₂, hmasked, hrb.trans hba, hgrows⟩

theorem chain_spec (c : Config) (x : Context) (s : State K) {env : Environment K}
    (hf : env.Fits x.store) : ∃ a b s' env', (visit c x s env).answer = .ok a ∧
      chain c x s env = (.ok b, s', env') ∧ b.context = a.context ∧
      (∀ b, s.1.fresh? env.clock.read.1 c.cacheInterval = some b →
        (visit c x s env).inquiries = [] ∧ a = b) ∧
      (∀ q ∈ (visit c x s env).inquiries, q.context.store = x.store) ∧
      env.Grows env' fun id k =>
        (∃ q ∈ (visit c x s env).inquiries, id = q.context.store ∧ q.context.Pairs k) ∨
          (c.boostWeight ≠ 0 ∧ c.minCommunication ≠ 0) ∧ id = a.context.store ∧
            a.context.HomePairs k := by
  obtain ⟨a, s', env₁, hcached, hanswer, hfresh, hstore, hgrows⟩ := cached_spec c x s hf
  obtain ⟨b, env₂, hchain, hctx, hgrows'⟩ := chain_of_cached hcached
  exact ⟨a, b, s', env₂, hanswer, hchain, hctx, hfresh, hstore, hgrows.trans hgrows'⟩

/-- **Computing trust conserves what was experienced**, in every store. If the counts of calls fit in
the store that is asked about, engines and chains answer. An engine stores the pairs of its context, in
the store of the context. A chain stores the pairs of the context that reached its engine, which has
the store that was asked about; there is no such context if the cache repeats an answer. With a boost
it also stores the pairs of the local peer and another one whom the answer of the cache is about, in
the store of that answer. A store in which there is nothing to be stored stays the same. -/
theorem chain_conserves {env : Environment K} {x : Context} (hf : env.Fits x.store) :
    (∀ a o, ∃ r o' env', (Engine.ofAlgorithm a).provider x o env = (.ok r, o', env') ∧
      env.Conserves env' fun id k => id = x.store ∧ x.Pairs k) ∧
    ∀ c s, ∃ a b s' env', (visit c x s env).answer = .ok a ∧
      chain c x s env = (.ok b, s', env') ∧ b.context = a.context ∧
      (∀ b, s.1.fresh? env.clock.read.1 c.cacheInterval = some b →
        (visit c x s env).inquiries = [] ∧ a = b) ∧
      (∀ q ∈ (visit c x s env).inquiries, q.context.store = x.store) ∧
      env.Conserves env' fun id k =>
        (∃ q ∈ (visit c x s env).inquiries, id = q.context.store ∧ q.context.Pairs k) ∨
          (c.boostWeight ≠ 0 ∧ c.minCommunication ≠ 0) ∧ id = a.context.store ∧
            a.context.HomePairs k := by
  refine ⟨fun a o => ?_, fun c s => ?_⟩
  · obtain ⟨r, o', env', h, -, hgrows⟩ := Engine.provider_spec a x o hf
    exact ⟨r, o', env', h, hgrows.conserves⟩
  · obtain ⟨a, b, s', env', hanswer, h, hctx, hfresh, hstore, hgrows⟩ := chain_spec c x s hf
    exact ⟨a, b, s', env', hanswer, h, hctx, hfresh, hstore, hgrows.conserves⟩

/-- An engine over one store, and a chain that is asked about this store and repeats an answer about
another one. -/
theorem chain_conserves_trio :
    let start := Experiences.empty
    let store := start.put (.named "a") (.named "b") ⟨3, 1, ⟨7⟩⟩
    let listing := [(Peer.named "a", Peer.named "b", (⟨3, 1, ⟨7⟩⟩ : Experience))]
    let env : Environment ℚ :=
      { experiences := fun _ => store, roster := .ofList [(.named "b", .active)],
        clock := .fixed ⟨9⟩, draws := .ofList [], notices := [] }
    let old : Assessment ℚ :=
      ⟨{ Context.trio .defaults with store := 1 }, ⟨[1 / 2, 1 / 4, 1 / 4]⟩, rfl⟩
    let s : State ℚ := (⟨some (old, ⟨5⟩), .script⟩, .empty)
    store.Arises ℚ ∧ (∀ id, env.Fits id) ∧
      (∃ r o' env', (Engine.ofAlgorithm .eigenTrustPlusPlus).provider (.trio .defaults) .empty env =
        (.ok r, o', env') ∧ (env'.experiences 0).entries[Pair.mk "m" "b"]? = some .none ∧
        env'.experiences 1 = store ∧ ∀ id, (env'.experiences id).interactions = .ok listing) ∧
      ∃ b s' env', chain (Config.ofHome "a") (.trio .defaults) s env = (.ok b, s', env') ∧
        env'.experiences 0 = store ∧
        (env'.experiences 1).entries[Pair.mk "a" "m"]? = some .none ∧
        ∀ id, (env'.experiences id).interactions = .ok listing := by
  intro start store listing env old s
  have hs : store.Arises ℚ :=
    ⟨24, start, [.put (.named "a") (.named "b") ⟨3, 1, ⟨7⟩⟩], if_pos (by decide), rfl⟩
  have hf : ∀ id, env.Fits id :=
    fun _ => Experiences.fits_put Experiences.fits_empty (by decide) _ _
  have hlist : store.interactions = .ok listing := by decide +kernel
  obtain ⟨hengine, hchain⟩ := chain_conserves (x := .trio .defaults) (hf 0)
  obtain ⟨r, o', env₁, hr, hc₁⟩ := hengine .eigenTrustPlusPlus .empty
  obtain ⟨a, b, s', env₂, -, hb, -, hfresh, -, hc₂⟩ := hchain (Config.ofHome "a") s
  obtain ⟨hasked, rfl⟩ := hfresh old (Cache.fresh?_eq_some rfl (by decide))
  rw [hasked] at hc₂
  refine ⟨hs, hf, ⟨r, o', env₁, hr, ?pair, ?other, fun id => ?_⟩, b, s', env₂, hb, ?hit, ?boost,
    fun id => ?_⟩
  case pair =>
    refine (hc₁ 0 hs (hf 0)).empty _
      ⟨rfl, .named "m", by decide, .named "b", by decide, by decide, rfl⟩ ?_
    decide +kernel
  case other => exact (hc₁ 1 hs (hf 1)).eq_self fun k hk => absurd hk.1 (by decide)
  case hit =>
    refine (hc₂ 0 hs (hf 0)).eq_self fun k hk => ?_
    rcases hk with ⟨q, hq, -⟩ | ⟨-, hid, -⟩
    · cases hq
    · exact absurd hid (by decide)
  case boost =>
    refine (hc₂ 1 hs (hf 1)).empty _ (.inr ⟨by decide, rfl, .named "m", by decide, rfl⟩) ?_
    decide +kernel
  · exact (hc₁ id hs (hf id)).interactions_eq.trans hlist
  · exact (hc₂ id hs (hf id)).interactions_eq.trans hlist

end Pipeline

end Reputation
