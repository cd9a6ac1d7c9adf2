import Reputation.Environment

/-!
# Selectors

A selector chooses the peers to talk to: one, or several at once. Its private state `σ` holds where
its draws come from.
-/

namespace Reputation

/-- **A way to choose peers**, with a private state `σ`. -/
structure Selector (K σ : Type) where
  /-- Chooses one peer, if there is one to choose. -/
  one : σ → Environment K → Option Peer × σ × Environment K
  /-- Chooses several peers. -/
  several : σ → Environment K → List Peer × σ × Environment K

end Reputation
