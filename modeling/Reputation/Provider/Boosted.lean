import Reputation.Environment

/-!
# Trust for rarely contacted peers

`Provider.boosted` adds trust to the peers whom the local peer has called with success less than some
number of times, in proportion to the missing calls, so that newcomers get their chance. The calls are
those in the store of the context that the inner answer is about, which may be an older one than the
context that was asked about.
-/

namespace Reputation

open Number

namespace Provider

variable {K σ : Type} [Number K]

/-- The number of successful calls from which on a peer gets no boost, by default. -/
def defaultCommunication : UInt64 := 10

/-- What is added to the trust in a peer after some successful calls: up to `weight` percent. -/
def boost (weight : UInt32) (least calls : UInt64) (x : K) : K :=
  if calls < least then
    x + ofNat weight.toNat / ofNat 100 * (ofNat least.toNat - ofNat calls.toNat) / ofNat least.toNat
  else x

/-- The trust of an assessment with the boosts added, scaled again; the local peer gets none. -/
def boostedTrust (weight : UInt32) (least : UInt64) (a : Assessment K) (store : Experiences) :
    Vec K :=
  let home := a.context.home
  Vec.normalize ⟨List.zipWith
    (fun p x => if p.same home then x else boost weight least (store.peek home p).successes x)
    a.context.peers a.trust.entries⟩

/-- **A provider that boosts** by at most `weight` percent whom the local peer has called with
success less than `least` times. -/
def boosted (weight : UInt32) (least : UInt64) (inner : Provider K σ) : Provider K σ :=
  fun c own env =>
    match inner c own env with
    | (.ok a, own, env) =>
      if weight = 0 ∨ least = 0 then (.ok a, own, env)
      else
        let id := a.context.store
        let trust := boostedTrust weight least a (env.experiences id)
        let store := a.context.others.foldl (fun s p => s.touch a.context.home p)
          (env.experiences id)
        ((Assessment.build a.context trust).mapError .error, own, env.keep id store)
    | failed => failed

end Provider

end Reputation
