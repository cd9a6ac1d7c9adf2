import Reputation.Experience.Store

/-!
# Scoring

How experience turns into scores. A `Scoring` gives the local trust that an observer derives from
its experience with a partner, and what a partner whom two observers know contributes to the
credibility between them. `Scoring.balance` counts successes less failures and knows no credibility;
`Scoring.similarity` counts successes and compares them.
-/

namespace Reputation

open Number

/-- **A way to score experiences.** -/
structure Scoring (K : Type) where
  trust : Experience → K
  credibility : Experience → Experience → Except Fault K

namespace Scoring

variable {K : Type} [Number K]

/-- Successes less failures, at least zero. -/
def balance : Scoring K where
  trust e := ofNat (e.successes.toNat - e.failures.toNat)
  credibility _ _ := .ok zero

/-- The difference of two amounts relative to their sum, zero if the sum is. -/
def contrast (a b : K) : K := if eq (a + b) zero then zero else (a - b) / (a + b)

/-- Successes; two observers are compared by their successes with a partner whom both have
called. -/
def similarity : Scoring K where
  trust e := ofNat e.successes.toNat
  credibility e f := do
    if ← e.isUsed then
      if ← f.isUsed then .ok (contrast (ofNat e.successes.toNat) (ofNat f.successes.toNat))
      else .ok zero
    else .ok zero

omit [Number K] in
/-- The contribution of a third peer to the credibility of the second with the first. -/
def credibilityOf (s : Scoring K) (first second third : Peer) (store : Experiences) :
    Except Fault K :=
  s.credibility (store.peek first third) (store.peek second third)

end Scoring

end Reputation
