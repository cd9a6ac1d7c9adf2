import Reputation.Config
import Reputation.Provider.Masked
import Reputation.Selector.Bootstrap
import Reputation.Selector.Weighted

/-!
# The trust pipeline

A configuration makes one chain of providers: the mask of active peers over the boost over the cache
over the engine of the configured algorithm. `Pipeline.selector` makes the chain of selectors for an
assessment: the way back to the pre-trusted peers over the draw in proportion to trust.
-/

namespace Reputation

namespace Pipeline

variable {K : Type} [Number K]

/-- The private states of the providers of a chain. -/
abbrev State (K : Type) := Cache K × Opinions K

/-- The states before the first computation. -/
def start (source : Source) : State K := (.empty source, .empty)

/-- **The chain of providers** of a configuration. -/
def chain (c : Config) : Provider K (State K) :=
  Provider.masked Sighting.isActive <|
    Provider.boosted c.boostWeight c.minCommunication <|
      Provider.cached c.cacheInterval c.maxMatrixSize.toNat <|
        (Engine.ofAlgorithm c.algorithm).provider

/-- What is told about a new chain. -/
def created (c : Config) : Notice :=
  .created c.algorithm.name c.home c.cacheInterval.toNat c.maxMatrixSize.toNat

/-- The chain of a configuration that passes its checks. -/
def provider? (c : Config) : Except TrustError (Provider K (State K)) :=
  (c.validate K).map fun _ => chain c

/-- **The chain of selectors** for an assessment. -/
def selector (c : Config) (a : Assessment K) : Selector K (Source × Source) :=
  .bootstrap a.context (.weighted c.maxSelected.toNat a)

end Pipeline

end Reputation
