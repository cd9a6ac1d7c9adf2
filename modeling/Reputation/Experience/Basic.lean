import Reputation.Failure
import Reputation.Instant

/-!
# Experiences

What one peer has seen of another: two counters and the time of the last change. Counters are 64-bit
counts; `Experience.calls` and `Experience.record` are faults where a count would leave them.
-/

namespace Reputation

/-- **How an interaction ended.** A neutral one says nothing about the partner. -/
inductive Outcome where
  | success
  | failure
  | neutral
deriving Repr, DecidableEq, Inhabited

namespace Outcome

/-- Every outcome. -/
def all : List Outcome := [success, failure, neutral]

/-- The word for an outcome. -/
def name : Outcome → String
  | success => "success"
  | failure => "failure"
  | neutral => "neutral"

/-- The outcome of exactly this name. -/
def ofName? (s : String) : Option Outcome := all.find? fun outcome => outcome.name == s

/-- Reads an outcome; ASCII capitals count as small letters. -/
def read (s : String) : Except TrustError Outcome :=
  match ofName? (s.map Char.toLower) with
  | some outcome => .ok outcome
  | none => .error (.unknownOutcome s)

end Outcome

/-- **The counters of an observer with a partner.** -/
structure Experience where
  successes : UInt64
  failures : UInt64
  updated : Instant
deriving Repr, DecidableEq, Inhabited

/-- The sum of two counts that fits in 64 bits. -/
def addCounts (a b : UInt64) : Except Fault UInt64 :=
  if a.toNat + b.toNat < UInt64.size then .ok (a + b) else .error .counterOverflow

namespace Experience

/-- No call yet. -/
def none : Experience := ⟨0, 0, .zero⟩

/-- Number of calls of either outcome. -/
def calls (e : Experience) : Except Fault UInt64 := addCounts e.successes e.failures

/-- Has there been a call? -/
def isUsed (e : Experience) : Except Fault Bool := e.calls.map fun n => decide (0 < n)

/-- Counts an outcome at a time. -/
def record (e : Experience) (outcome : Outcome) (t : Instant) : Except Fault Experience :=
  match outcome with
  | .success => do .ok { e with successes := ← addCounts e.successes 1, updated := t }
  | .failure => do .ok { e with failures := ← addCounts e.failures 1, updated := t }
  | .neutral => .ok { e with updated := t }

end Experience

end Reputation
