import Reputation.Proofs.Context
import Reputation.Proofs.Provider.Serving
import Reputation.Proofs.Provider.Truncation
import Reputation.Provider.Cached

/-! # The protocol of a cache

A call of a cache is told as a `Visit`: what the cache held before and after it, and every question
that was passed on. To see these questions, the inner provider is made to note them
(`Provider.noting`), which changes nothing else (`Provider.cached_eq_visit`).

One visit either repeats a fresh answer and touches nothing but the clock, or asks one question
(`Provider.visit_spec`). Over a run, what the cache holds is the latest success among the questions
(`Provider.exists_visit_eq`), so `Provider.visits_protocol` tells each visit by the visits before it
alone. -/

namespace Reputation

/-- **A question to a provider**, and how it was answered. -/
structure Inquiry (K : Type) where
  context : Context
  env : Environment K
  answer : Except Failure (Assessment K)
  left : Environment K

/-- **A call of a cache.** -/
structure Visit (K : Type) where
  context : Context
  env : Environment K
  before : Cache K
  answer : Except Failure (Assessment K)
  /-- The questions that the inner provider was asked meanwhile. -/
  inquiries : List (Inquiry K)
  after : Cache K
  left : Environment K

namespace Visit

variable {K : Type}

/-- What the clock shows when the call comes. -/
def now (v : Visit K) : Instant := v.env.clock.read.1

/-- The environment in which the clock was read once. -/
def ticked (v : Visit K) : Environment K := { v.env with clock := v.env.clock.read.2 }

/-- The answers to the questions that were passed on, with the times of their visits. -/
def successes (vs : List (Visit K)) : List (Assessment K × Instant) :=
  vs.flatMap fun v => v.inquiries.filterMap fun q => q.answer.toOption.map fun a => (a, v.now)

/-- **The latest success.** -/
def latest (vs : List (Visit K)) : Option (Assessment K × Instant) := (successes vs).getLast?

theorem successes_cons (v : Visit K) (vs : List (Visit K)) :
    successes (v :: vs) = successes [v] ++ successes vs := by simp [successes]

theorem latest_cons (v : Visit K) (vs : List (Visit K)) :
    latest (v :: vs) = (latest vs).or (latest [v]) := by
  unfold latest
  rw [successes_cons, List.getLast?_append]

theorem latest_concat (vs : List (Visit K)) (v : Visit K) :
    latest (vs ++ [v]) = (latest [v]).or (latest vs) := by
  unfold latest successes
  rw [List.flatMap_append, List.getLast?_append]

end Visit

namespace Cache

variable {K : Type} {cache : Cache K} {now : Instant} {interval : UInt64}

/-- What a cache holds after an answer to a question of some time. -/
def kept (before : Option (Assessment K × Instant)) (now : Instant) :
    Except Failure (Assessment K) → Option (Assessment K × Instant)
  | .ok a => some (a, now)
  | .error _ => before

theorem fresh?_eq_some {a : Assessment K} {t : Instant} (h : cache.latest = some (a, t))
    (ht : now.seconds.toNat - t.seconds.toNat < interval.toNat) :
    cache.fresh? now interval = some a := by
  rw [← Instant.toNat_since, ← UInt64.lt_iff_toNat_lt] at ht
  unfold fresh?
  simp only [h, if_pos ht]

theorem fresh?_eq_none : cache.fresh? now interval = none ↔ ∀ a t, cache.latest = some (a, t) →
    interval.toNat ≤ now.seconds.toNat - t.seconds.toNat := by
  constructor
  · intro h a t ha
    by_contra ht
    rw [fresh?_eq_some ha (Nat.lt_of_not_le ht)] at h
    cases h
  · intro h
    unfold fresh?
    split
    · next a t ha =>
      have ht := h a t ha
      rw [← Instant.toNat_since, ← UInt64.le_iff_toNat_le] at ht
      exact if_neg (UInt64.not_lt.mpr ht)
    · rfl

end Cache

namespace Visit

variable {K σ : Type}

/-- **A visit that repeats** an answer: nothing but the clock was read. -/
structure Repeats (v : Visit K) (a : Assessment K) : Prop where
  answer : v.answer = .ok a
  inquiries : v.inquiries = []
  after : v.after = v.before
  left : v.left = v.ticked

/-- **A visit that asks** the inner provider one question, and passes its answer back. -/
structure Asks (v : Visit K) (inner : Provider K σ) (q : Inquiry K) : Prop where
  inquiries : v.inquiries = [q]
  env : q.env = { v.ticked with draws := q.env.draws }
  asked : ∃ own own', inner q.context own q.env = (q.answer, own', q.left)
  answer : v.answer = q.answer
  left : v.left = q.left
  /-- A success is kept with the time of the visit, a failure leaves the last success. -/
  latest : v.after.latest = Cache.kept v.before.latest v.now q.answer

end Visit

namespace Provider

variable {K σ : Type}

/-- A provider that notes each question, and how another one answers it. -/
def noting (inner : Provider K σ) : Provider K (σ × List (Inquiry K)) := fun c (own, notes) env =>
  let (answer, own, left) := inner c own env
  (answer, (own, notes ++ [⟨c, env, answer, left⟩]), left)

variable [Number K]

/-- **A visit**, and the private state of the inner provider after it. -/
def visit (interval : UInt64) (size : ℕ) (inner : Provider K σ) (c : Context) (s : Cache K × σ)
    (env : Environment K) : Visit K × σ :=
  let (answer, (after, own, inquiries), left) :=
    cached interval size (noting inner) c (s.1, s.2, []) env
  (⟨c, env, s.1, answer, inquiries, after, left⟩, own)

/-- **The visits of a run**, each in an environment of its own. -/
def visits (interval : UInt64) (size : ℕ) (inner : Provider K σ) :
    Cache K × σ → List (Context × Environment K) → List (Visit K)
  | _, [] => []
  | s, (c, env) :: calls =>
    let (v, own) := visit interval size inner c s env
    v :: visits interval size inner (v.after, own) calls

/-! ### One call -/

/-- **There is always a context to pass on.** -/
theorem bounded_eq_ok (size : ℕ) (c : Context) (cache : Cache K) (draws : Draws K) :
    ∃ c' source draws', bounded (max size 1) c cache draws = (.ok c', source, draws') := by
  unfold bounded
  split
  · obtain ⟨hd, -, hlast⟩ := Truncation.select_spec c (cache.latest.map Prod.fst)
      (Nat.le_max_right size 1) cache.source draws
    have hm := List.mem_map_of_mem (f := Peer.id) (List.mem_of_getLast? hlast)
    exact ⟨_, _, _, Prod.ext (Context.build_eq_ok hd hm _ _ _) rfl⟩
  · exact ⟨_, _, _, rfl⟩

/-- What would be asked, and how the inner provider would answer. -/
theorem exists_inquiry (size : ℕ) (c : Context) (cache : Cache K) (env : Environment K)
    (inner : Provider K σ) (own : σ) : ∃ c' source draws answer own' left,
      bounded (max size 1) c cache env.draws = (.ok c', source, draws) ∧
      inner c' own { env with clock := env.clock.read.2, draws } = (answer, own', left) := by
  obtain ⟨c', source, draws, hb⟩ := bounded_eq_ok size c cache env.draws
  exact ⟨c', source, draws, _, _, _, hb, rfl⟩

section Cached
variable {interval : UInt64} {size : ℕ} {c : Context} {cache : Cache K} {env : Environment K}

theorem cached_of_fresh {a : Assessment K} (h : cache.fresh? env.clock.read.1 interval = some a)
    (inner : Provider K σ) (own : σ) :
    cached interval size inner c (cache, own) env =
      (.ok a, (cache, own), { env with clock := env.clock.read.2 }) := by
  unfold cached
  simp only [h]

theorem cached_of_stale (h : cache.fresh? env.clock.read.1 interval = none) {c' : Context}
    {source : Source} {draws : Draws K}
    (hb : bounded (max size 1) c cache env.draws = (.ok c', source, draws)) {inner : Provider K σ}
    {own own' : σ} {answer : Except Failure (Assessment K)} {left : Environment K}
    (hi : inner c' own { env with clock := env.clock.read.2, draws } = (answer, own', left)) :
    cached interval size inner c (cache, own) env =
      (answer, (⟨Cache.kept cache.latest env.clock.read.1 answer, source⟩, own'), left) := by
  unfold cached
  simp only [h, hb, hi]
  cases answer <;> rfl

/-! ### One visit -/

/-- **A fresh answer is repeated**, and no question passed on. -/
theorem visit_of_fresh {a : Assessment K} (h : cache.fresh? env.clock.read.1 interval = some a)
    (inner : Provider K σ) (own : σ) :
    visit interval size inner c (cache, own) env =
      (⟨c, env, cache, .ok a, [], cache, { env with clock := env.clock.read.2 }⟩, own) := by
  unfold visit
  rw [cached_of_fresh h]

/-- **Otherwise one question is passed on.** -/
theorem visit_of_stale (h : cache.fresh? env.clock.read.1 interval = none) {c' : Context}
    {source : Source} {draws : Draws K}
    (hb : bounded (max size 1) c cache env.draws = (.ok c', source, draws)) {inner : Provider K σ}
    {own own' : σ} {answer : Except Failure (Assessment K)} {left : Environment K}
    (hi : inner c' own { env with clock := env.clock.read.2, draws } = (answer, own', left)) :
    visit interval size inner c (cache, own) env =
      (⟨c, env, cache, answer,
        [⟨c', { env with clock := env.clock.read.2, draws }, answer, left⟩],
        ⟨Cache.kept cache.latest env.clock.read.1 answer, source⟩, left⟩, own') := by
  have hn : noting inner c' (own, []) { env with clock := env.clock.read.2, draws } =
      (answer, (own', [⟨c', { env with clock := env.clock.read.2, draws }, answer, left⟩]),
        left) := by
    unfold noting
    simp only [hi]
    rfl
  unfold visit
  rw [cached_of_stale h hb hn]

/-- **What was asked** in a visit: a question about the bounded context, when no answer was fresh. -/
theorem of_mem_inquiries {inner : Provider K σ} {own : σ} {q : Inquiry K}
    (hq : q ∈ (visit interval size inner c (cache, own) env).1.inquiries) :
    cache.fresh? env.clock.read.1 interval = none ∧
      q.env = { env with clock := env.clock.read.2, draws := q.env.draws } ∧
      ∃ source own', bounded (max size 1) c cache env.draws = (.ok q.context, source, q.env.draws) ∧
        inner q.context own q.env = (q.answer, own', q.left) := by
  cases h : cache.fresh? env.clock.read.1 interval with
  | some a =>
    rw [visit_of_fresh h] at hq
    cases hq
  | none =>
    obtain ⟨c', source, draws, answer, own', left, hb, hi⟩ :=
      exists_inquiry size c cache env inner own
    rw [visit_of_stale h hb hi] at hq
    rw [List.mem_singleton.mp hq]
    exact ⟨rfl, rfl, source, own', hb, hi⟩

/-- **Noting the questions changes nothing**: a visit is what a call of the cache does. -/
theorem cached_eq_visit (inner : Provider K σ) (own : σ) :
    cached interval size inner c (cache, own) env =
      ((visit interval size inner c (cache, own) env).1.answer,
        ((visit interval size inner c (cache, own) env).1.after,
          (visit interval size inner c (cache, own) env).2),
        (visit interval size inner c (cache, own) env).1.left) := by
  cases h : cache.fresh? env.clock.read.1 interval with
  | some a => rw [cached_of_fresh h, visit_of_fresh h]
  | none =>
    obtain ⟨c', source, draws, answer, own', left, hb, hi⟩ :=
      exists_inquiry size c cache env inner own
    rw [cached_of_stale h hb hi, visit_of_stale h hb hi]

end Cached

section Run
variable (interval : UInt64) (size : ℕ) (inner : Provider K σ)

theorem map_visits (s : Cache K × σ) (calls : List (Context × Environment K)) :
    (visits interval size inner s calls).map (fun v => (v.context, v.env)) = calls := by
  induction calls generalizing s with
  | nil => rfl
  | cons call calls ih =>
    unfold visits
    exact congrArg _ (ih _)

theorem answers_eq_visits (s : Cache K × σ) (calls : List (Context × Environment K)) :
    (cached interval size inner).answers s calls =
      (visits interval size inner s calls).map Visit.answer := by
  induction calls generalizing s with
  | nil => rfl
  | cons call calls ih =>
    obtain ⟨cache, own⟩ := s
    unfold answers visits
    rw [cached_eq_visit]
    simp only [List.map_cons, ih]

/-- **One visit** repeats a fresh answer, or asks. -/
theorem visit_spec (c : Context) (s : Cache K × σ) (env : Environment K) :
    (∀ a, s.1.fresh? env.clock.read.1 interval = some a →
      (visit interval size inner c s env).1.Repeats a) ∧
    (s.1.fresh? env.clock.read.1 interval = none →
      ∃ q, (visit interval size inner c s env).1.Asks inner q) := by
  obtain ⟨cache, own⟩ := s
  constructor
  · intro a h
    rw [visit_of_fresh h]
    exact ⟨rfl, rfl, rfl, rfl⟩
  · intro h
    obtain ⟨c', source, draws, answer, own', left, hb, hi⟩ :=
      exists_inquiry size c cache env inner own
    rw [visit_of_stale h hb hi]
    exact ⟨_, rfl, rfl, ⟨own, own', hi⟩, rfl, rfl, rfl⟩

/-- **What one visit adds**: nothing, or a success that is kept and comes an interval after the one
before. -/
theorem successes_visit (c : Context) (s : Cache K × σ) (env : Environment K) :
    (Visit.successes [(visit interval size inner c s env).1] = [] ∧
      (visit interval size inner c s env).1.after.latest = s.1.latest) ∨
    ∃ a, Visit.successes [(visit interval size inner c s env).1] = [(a, env.clock.read.1)] ∧
      (visit interval size inner c s env).1.after.latest = some (a, env.clock.read.1) ∧
      ∀ b t, s.1.latest = some (b, t) →
        interval.toNat ≤ env.clock.read.1.seconds.toNat - t.seconds.toNat := by
  obtain ⟨cache, own⟩ := s
  cases h : cache.fresh? env.clock.read.1 interval with
  | some a => rw [visit_of_fresh h]; exact Or.inl ⟨rfl, rfl⟩
  | none =>
    obtain ⟨c', source, draws, answer, own', left, hb, hi⟩ :=
      exists_inquiry size c cache env inner own
    rw [visit_of_stale h hb hi]
    cases answer with
    | error _ => exact Or.inl ⟨rfl, rfl⟩
    | ok a => exact Or.inr ⟨a, rfl, rfl, Cache.fresh?_eq_none.mp h⟩

theorem latest_visit (c : Context) (s : Cache K × σ) (env : Environment K) :
    (visit interval size inner c s env).1.after.latest =
      (Visit.latest [(visit interval size inner c s env).1]).or s.1.latest := by
  unfold Visit.latest
  rcases successes_visit interval size inner c s env with ⟨hs, hl⟩ | ⟨a, hs, hl, -⟩
  · rw [hs, hl]; rfl
  · rw [hs, hl]; rfl

/-- **A visit in a run** is one to a cache that holds the latest success before it. -/
theorem exists_visit_eq {s : Cache K × σ} {calls : List (Context × Environment K)}
    {past rest : List (Visit K)} {v : Visit K}
    (h : visits interval size inner s calls = past ++ v :: rest) :
    ∃ c s' env, v = (visit interval size inner c s' env).1 ∧
      s'.1.latest = (Visit.latest past).or s.1.latest := by
  induction past generalizing s calls with
  | nil =>
    cases calls with
    | nil => cases h
    | cons call calls =>
      obtain ⟨hv, -⟩ := List.cons.inj h
      exact ⟨call.1, s, call.2, hv.symm, rfl⟩
  | cons u past ih =>
    cases calls with
    | nil => cases h
    | cons call calls =>
      obtain ⟨hu, ht⟩ := List.cons.inj h
      obtain ⟨c, s', env, hv, hs⟩ := ih ht
      refine ⟨c, s', env, hv, ?_⟩
      rw [hs, Visit.latest_cons, Option.or_assoc, ← hu]
      exact congrArg _ (latest_visit interval size inner call.1 s call.2)

/-! ### The distance of successes -/

/-- In a run whose clock does not go backwards, every success is at least an interval after what the
cache held before, and after every earlier success. -/
theorem pairwise_successes {calls : List (Context × Environment K)}
    (hm : calls.Pairwise fun x y => x.2.clock.read.1.seconds ≤ y.2.clock.read.1.seconds)
    {s : Cache K × σ} (hs : ∀ a t, s.1.latest = some (a, t) →
      ∀ call ∈ calls, t.seconds ≤ call.2.clock.read.1.seconds) :
    (∀ a t, s.1.latest = some (a, t) → ∀ x ∈ Visit.successes (visits interval size inner s calls),
      t.seconds.toNat + interval.toNat ≤ x.2.seconds.toNat) ∧
    (Visit.successes (visits interval size inner s calls)).Pairwise fun x y =>
      x.2.seconds.toNat + interval.toNat ≤ y.2.seconds.toNat := by
  induction calls generalizing s with
  | nil => exact ⟨fun _ _ _ x hx => absurd hx List.not_mem_nil, List.Pairwise.nil⟩
  | cons call calls ih =>
    obtain ⟨c, env⟩ := call
    obtain ⟨hnow, hm⟩ := List.pairwise_cons.mp hm
    have ih := ih hm (s := ((visit interval size inner c s env).1.after,
      (visit interval size inner c s env).2))
    unfold visits
    simp only at ih ⊢
    rw [Visit.successes_cons]
    rcases successes_visit interval size inner c s env with ⟨hv, hl⟩ | ⟨a, hv, hl, hfar⟩
    · rw [hl] at ih
      rw [hv]
      exact ih fun a t ha call hcall => hs a t ha call (List.mem_cons_of_mem _ hcall)
    · rw [hl] at ih
      obtain ⟨hlast, hpair⟩ := ih fun b t hbt call hcall => by cases hbt; exact hnow call hcall
      rw [hv]
      -- the success of this visit comes an interval after the one before, and those of the rest
      -- an interval after this one
      have hold : ∀ b t, s.1.latest = some (b, t) →
          t.seconds.toNat + interval.toNat ≤ env.clock.read.1.seconds.toNat := by
        intro b t hbt
        have hle : t.seconds.toNat ≤ env.clock.read.1.seconds.toNat :=
          UInt64.le_iff_toNat_le.mp (hs b t hbt (c, env) List.mem_cons_self)
        have := hfar b t hbt
        omega
      have hnew := hlast a env.clock.read.1 rfl
      refine ⟨fun b t hbt x hx => ?_, List.pairwise_cons.mpr ⟨hnew, hpair⟩⟩
      have := hold b t hbt
      rcases List.mem_cons.mp hx with rfl | hx
      · exact this
      · have := hnew x hx
        omega

/-! ### The protocol -/

/-- **The protocol of a cache**, over a run that starts with an empty one. Before and after every
visit the cache holds the latest success so far. Where this is younger than the interval, the visit
repeats it; otherwise it asks. While the clock does not go backwards, successes are at least an
interval apart. -/
theorem visits_protocol (source : Source) (own : σ) (calls : List (Context × Environment K))
    {vs : List (Visit K)} (hvs : visits interval size inner (.empty source, own) calls = vs) :
    vs.map (fun v => (v.context, v.env)) = calls ∧
    (cached interval size inner).answers (.empty source, own) calls = vs.map Visit.answer ∧
    (∀ past v rest, vs = past ++ v :: rest →
      v.before.latest = Visit.latest past ∧ v.after.latest = Visit.latest (past ++ [v]) ∧
      (∀ a t, Visit.latest past = some (a, t) →
        v.now.seconds.toNat - t.seconds.toNat < interval.toNat → v.Repeats a) ∧
      ((∀ a t, Visit.latest past = some (a, t) →
        interval.toNat ≤ v.now.seconds.toNat - t.seconds.toNat) → ∃ q, v.Asks inner q)) ∧
    (calls.Pairwise (fun x y => x.2.clock.read.1.seconds ≤ y.2.clock.read.1.seconds) →
      (Visit.successes vs).Pairwise fun x y =>
        x.2.seconds.toNat + interval.toNat ≤ y.2.seconds.toNat) := by
  subst hvs
  refine ⟨map_visits _ _ _ _ _, answers_eq_visits _ _ _ _ _, fun past v rest h => ?visit, fun hm =>
    (pairwise_successes _ _ _ hm fun a t ha => ?_).2⟩
  case visit =>
    obtain ⟨c, s, env, rfl, hs⟩ := exists_visit_eq _ _ _ h
    have hs : s.1.latest = Visit.latest past := hs.trans Option.or_none
    obtain ⟨hrepeats, hasks⟩ := visit_spec interval size inner c s env
    refine ⟨hs, ?_, fun a t ha ht => ?_, fun hold => ?_⟩
    · rw [latest_visit, hs, Visit.latest_concat]
    · exact hrepeats a (Cache.fresh?_eq_some (hs.trans ha) ht)
    · exact hasks (Cache.fresh?_eq_none.mpr fun a t ha => hold a t (hs.symm.trans ha))
  · cases ha

end Run

/-- A provider that gives its answers in turn. -/
def scripted : Provider K (List (Except Failure (Assessment K))) := fun _ answers env =>
  (answers.headD (.error (.error .missingResult)), answers.tail, env)

/-- Calls at the seconds 10, 20, 200 and 210, of which the second repeats and the third fails. -/
theorem visits_protocol_four :
    let a : Assessment ℚ := ⟨.trio .defaults, ⟨[1, 0, 0]⟩, rfl⟩
    let b : Assessment ℚ := ⟨.trio .defaults, ⟨[0, 1, 0]⟩, rfl⟩
    let call (t : Instant) : Context × Environment ℚ := (.trio .defaults,
      { experiences := fun _ => .empty, roster := .ofList [], clock := .fixed t,
        draws := .ofList [], notices := [] })
    ∃ u v w x, visits 100 101 scripted
        (.empty .script, [.ok a, .error (.error .missingResult), .ok b])
        [call ⟨10⟩, call ⟨20⟩, call ⟨200⟩, call ⟨210⟩] = [u, v, w, x] ∧
      v.Repeats a ∧ w.after.latest = some (a, ⟨10⟩) ∧ (∃ q, x.Asks scripted q) ∧
      Visit.successes [u, v, w, x] = [(a, ⟨10⟩), (b, ⟨210⟩)] ∧
      (Visit.successes [u, v, w, x]).Pairwise fun x y =>
        x.2.seconds.toNat + 100 ≤ y.2.seconds.toNat := by
  intro a b call
  obtain ⟨u, v, w, x, h, hu, huvw, hs, hv, hx⟩ : ∃ u v w x,
      visits 100 101 scripted (.empty .script, [.ok a, .error (.error .missingResult), .ok b])
        [call ⟨10⟩, call ⟨20⟩, call ⟨200⟩, call ⟨210⟩] = [u, v, w, x] ∧
      Visit.latest [u] = some (a, ⟨10⟩) ∧ Visit.latest [u, v, w] = some (a, ⟨10⟩) ∧
      Visit.successes [u, v, w, x] = [(a, ⟨10⟩), (b, ⟨210⟩)] ∧
      v.now = ⟨20⟩ ∧ x.now = ⟨210⟩ := ⟨_, _, _, _, rfl, rfl, rfl, rfl, rfl, rfl⟩
  obtain ⟨-, -, hvisit, hpair⟩ := visits_protocol 100 101 scripted .script _ _ h
  obtain ⟨-, -, hrepeats, -⟩ := hvisit [u] v [w, x] rfl
  obtain ⟨-, hafter, -⟩ := hvisit [u, v] w [x] rfl
  obtain ⟨-, -, -, hasks⟩ := hvisit [u, v, w] x [] rfl
  refine ⟨u, v, w, x, h, hrepeats a ⟨10⟩ hu ?_, hafter.trans huvw, hasks fun a' t ht => ?_, hs,
    hpair ?_⟩
  · rw [hv]; decide
  · rw [huvw] at ht
    cases ht
    rw [hx]; decide
  · decide

end Provider

end Reputation
