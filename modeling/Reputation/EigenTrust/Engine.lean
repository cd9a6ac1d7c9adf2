import Reputation.EigenTrust.Feedback
import Reputation.Environment
import Reputation.PowerIteration

/-!
# The trust algorithms

An `Engine` computes trust from experience alone: local trust, then the matrix of it, then the power
iteration from the pre-trust. `Engine.eigenTrust` takes the matrix as it is,
`Engine.eigenTrustPlusPlus` weighs it by the credibility of feedback. `Engine.provider` is an engine
as a provider of trust; its private state is what its last computation stored.
-/

namespace Reputation

open Number

/-- The trust algorithms by name. -/
inductive Algorithm where
  | eigenTrust
  | eigenTrustPlusPlus
deriving Repr, DecidableEq, Inhabited

namespace Algorithm

/-- Every algorithm. -/
def all : List Algorithm := [eigenTrust, eigenTrustPlusPlus]

/-- The name of an algorithm in settings. -/
def name : Algorithm → String
  | eigenTrust => "eigentrust"
  | eigenTrustPlusPlus => "eigentrust++"

/-- The name of an algorithm in descriptions. -/
def title : Algorithm → String
  | eigenTrust => "EigenTrust"
  | eigenTrustPlusPlus => "EigenTrustPlusPlus"

/-- The algorithm of exactly this name. -/
def ofName? (s : String) : Option Algorithm := all.find? fun a => a.name == s

/-- Reads an algorithm. ASCII capitals count as small letters, and the plus signs may be spelled
out. -/
def read (s : String) : Except TrustError Algorithm :=
  let word := s.map Char.toLower
  if word == "eigentrustplusplus" then .ok eigenTrustPlusPlus
  else match ofName? word with
    | some a => .ok a
    | none => .error (.unknownAlgorithm s)

end Algorithm

/-- **An engine**: how experience is scored, and whether feedback is weighed by credibility. -/
structure Engine (K : Type) where
  scoring : Scoring K
  weighsFeedback : Bool

/-- The scores that an engine keeps. -/
structure Opinions (K : Type) where
  trust : ScoreTable K
  credibility : ScoreTable K

namespace Opinions

variable {K : Type} [Number K]

/-- No score is kept. -/
def empty : Opinions K := ⟨.empty zero, .empty zero⟩

end Opinions

namespace Engine

variable {K : Type} [Number K]

/-- Successes less failures, and feedback at face value. -/
def eigenTrust : Engine K := ⟨.balance, false⟩

/-- Successes, and feedback weighed by credibility. -/
def eigenTrustPlusPlus : Engine K := ⟨.similarity, true⟩

/-- The engine of an algorithm. -/
def ofAlgorithm : Algorithm → Engine K
  | .eigenTrust => eigenTrust
  | .eigenTrustPlusPlus => eigenTrustPlusPlus

/-- Computes the row of one peer. -/
def updateTrust (e : Engine K) (p : Peer) (c : Context) (o : Opinions K) (store : Experiences) :
    Except TrustError (Opinions K × Experiences) := do
  let (trust, store) ← LocalTrust.update e.scoring p c o.trust store
  .ok ({ o with trust }, store)

/-- Computes the credibility between all peers. -/
def updateFeedback (e : Engine K) (c : Context) (o : Opinions K) (store : Experiences) :
    Except Failure (Opinions K) := do
  let credibility ← Feedback.update e.scoring c o.credibility store
  .ok { o with credibility }

/-- Computes everything that the matrix is read from. -/
def refresh (e : Engine K) (c : Context) (o : Opinions K) (store : Experiences) :
    Except Failure (Opinions K × Experiences) := do
  let (trust, store) ← LocalTrust.updateAll e.scoring c o.trust store
  let o := { o with trust }
  if e.weighsFeedback then .ok (← e.updateFeedback c o store, store) else .ok (o, store)

/-- The matrix over which the power iteration runs. -/
def matrix (e : Engine K) (o : Opinions K) (peers : List Peer) : Except TrustError (Matrix K) :=
  if e.weighsFeedback then Feedback.matrix o.trust o.credibility peers
  else LocalTrust.matrix o.trust peers

/-! ### Running the iteration -/

/-- The parameters with which the iteration of a context runs. -/
structure Tuning (K : Type) where
  limit : Nat
  alpha : K
  epsilon : K
  /-- One notice for each malformed parameter. -/
  notices : List Notice

/-- Reads the parameters; a missing or malformed one takes its default, and a limit below zero is
zero. -/
def tuning (p : Params) : Tuning K :=
  let (limit, badLimit) := p.integerOr Params.maxIterations Params.defaultMaxIterations
  let (alpha, badAlpha) := p.numberOr Params.alpha Params.defaultAlpha
  let (epsilon, badEpsilon) := p.numberOr Params.epsilon Params.defaultEpsilon
  let notice (name : String) (bad : Option String) : List Notice :=
    (bad.map (Notice.malformedParameter name)).toList
  { limit := limit.toNat
    alpha
    epsilon
    notices := notice Params.maxIterations badLimit ++ notice Params.alpha badAlpha ++
      notice Params.epsilon badEpsilon }

/-- The iteration over a matrix that belongs to a context. -/
def iteration (c : Context) (m : Matrix K) : Except TrustError (PowerIteration K) :=
  let t : Tuning K := tuning c.params
  PowerIteration.start c.preTrust m t.limit t.epsilon t.alpha

/-- The assessment that a matrix leads to, with the notices that come with it. -/
def assess (c : Context) (m : Matrix K) : Except TrustError (Assessment K × List Notice) := do
  let p ← iteration c m
  let (trust, p) ← p.converge
  let late := if p.progress.hasConverged then [] else [.notConverged p.limit]
  let a ← Assessment.build c trust
  .ok (a, (tuning c.params : Tuning K).notices ++ late)

/-- **Trust from experience.** -/
def compute (e : Engine K) (c : Context) (o : Opinions K) (store : Experiences) :
    Except Failure ((Assessment K × List Notice) × Opinions K × Experiences) := do
  let (o, store) ← e.refresh c o store
  let m ← e.matrix o c.peers
  let a ← assess c m
  .ok (a, o, store)

/-- An engine as a provider of trust, from the experiences in the store of the context. -/
def provider (e : Engine K) : Provider K (Opinions K) := fun c o env =>
  match e.compute c o (env.experiences c.store) with
  | .ok ((a, notices), o, store) => (.ok a, o, (env.tellAll notices).keep c.store store)
  | .error failure => (.error failure, o, env)

end Engine

end Reputation
