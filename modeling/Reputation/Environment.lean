import Reputation.Context
import Reputation.Draws.Basic
import Reputation.Experience.Store
import Reputation.Notice
import Reputation.Roster

/-!
# The environment of computations

What all computations of a node share: the stores of experiences, the roster, the clock, the script
of draws and the notices given so far. A context names the store that it is about, so an old context
leads to its own store still. A `Provider` computes trust over a context with a state of its own; a
failure leaves both states as they are at that point.
-/

namespace Reputation

/-- **What computations share.** -/
structure Environment (K : Type) where
  /-- The contents of every store. -/
  experiences : StoreId → Experiences
  roster : Roster
  clock : Clock
  draws : Draws K
  notices : List Notice

namespace Environment

variable {K : Type}

/-- The environment with other contents of one store. -/
def keep (e : Environment K) (id : StoreId) (s : Experiences) : Environment K :=
  { e with experiences := fun i => if i = id then s else e.experiences i }

/-- The environment with another notice at the end. -/
def tell (e : Environment K) (n : Notice) : Environment K := { e with notices := e.notices ++ [n] }

/-- The environment with further notices. -/
def tellAll (e : Environment K) (ns : List Notice) : Environment K :=
  { e with notices := e.notices ++ ns }

end Environment

/-- **A way to compute trust**, with a private state `σ`. The context of the assessment may be
another one than was asked for. -/
abbrev Provider (K σ : Type) :=
  Context → σ → Environment K → Except Failure (Assessment K) × σ × Environment K

end Reputation
