import Reputation.Provider.Truncation

/-!
# Cached trust

`Provider.cached` asks another provider at most once in an interval and otherwise repeats its last
answer. A context of too many peers is truncated before it is passed on. An inner failure leaves the
cache as it was.
-/

namespace Reputation

/-- **A cache**: the last answer with the time at which it was asked for, and where the draws of a
truncation come from. -/
structure Cache (K : Type) where
  latest : Option (Assessment K × Instant)
  source : Source

namespace Cache

variable {K : Type}

/-- A cache without an answer. -/
def empty (source : Source) : Cache K := ⟨none, source⟩

/-- The last answer, if it is younger than the interval. -/
def fresh? (cache : Cache K) (now : Instant) (interval : UInt64) : Option (Assessment K) :=
  match cache.latest with
  | some (a, t) => if now.since t < interval then some a else none
  | none => none

end Cache

namespace Provider

variable {K σ : Type} [Number K]

/-- The number of peers that are passed on by default. -/
def defaultSize : Nat := 101

/-- The context that is passed on for `c`: itself, or its truncation to `size` peers. -/
def bounded (size : Nat) (c : Context) (cache : Cache K) (draws : Draws K) :
    Except TrustError Context × Source × Draws K :=
  if size < c.peers.length then
    let (peers, source, draws) :=
      Truncation.select c (cache.latest.map Prod.fst) size cache.source draws
    (c.withPeers peers, source, draws)
  else (.ok c, cache.source, draws)

/-- **A provider with a cache.** It passes on at most `size` peers, and at least one. -/
def cached (interval : UInt64) (size : Nat) (inner : Provider K σ) : Provider K (Cache K × σ) :=
  fun c (cache, own) env =>
    let (now, clock) := env.clock.read
    let env := { env with clock }
    match cache.fresh? now interval with
    | some a => (.ok a, (cache, own), env)
    | none =>
      let (asked, source, draws) := bounded (max size 1) c cache env.draws
      let cache := { cache with source }
      let env := { env with draws }
      match asked with
      | .error e => (.error (.error e), (cache, own), env)
      | .ok c =>
        match inner c own env with
        | (.ok a, own, env) => (.ok a, ({ cache with latest := some (a, now) }, own), env)
        | (.error failure, own, env) => (.error failure, (cache, own), env)

end Provider

end Reputation
