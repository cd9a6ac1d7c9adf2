import Reputation.Draws.Keystream
import Reputation.Number.Basic

/-!
# Draws

Random numbers come from a `Source`: a private stream of its own, or a script that all sources share.
A script gives its values in turn and then repeats the last one; it counts what was drawn from it.
`Source.index` draws a position in a list.
-/

namespace Reputation

open Number

/-- **A script of draws**: the values it is going to give, the last of which stays, and the number
of values drawn so far. -/
structure Draws (K : Type) where
  values : List K
  taken : Nat
deriving Repr, Inhabited

namespace Draws

variable {K : Type} [Number K]

/-- A script from which nothing was drawn. -/
def ofList (values : List K) : Draws K := ⟨values, 0⟩

/-- The next value, and the script after it; a script without values gives zero. -/
def next : Draws K → K × Draws K
  | ⟨[], n⟩ => (zero, ⟨[], n + 1⟩)
  | ⟨[x], n⟩ => (x, ⟨[x], n + 1⟩)
  | ⟨x :: y :: xs, n⟩ => (x, ⟨y :: xs, n + 1⟩)

end Draws

/-- **Where draws come from.** -/
inductive Source where
  | script
  | stream (s : Keystream)
deriving Repr, Inhabited

namespace Source

variable {K : Type} [Number K]

/-- The number in `[0, 1)` that the upper 53 bits of a word stand for. -/
def fraction (word : UInt64) : K := ofNat (word >>> 11).toNat / ofNat (Nat.pow 2 53)

/-- The next draw, with the source and the shared script after it. -/
def draw (source : Source) (draws : Draws K) : K × Source × Draws K :=
  match source with
  | script => let (x, draws) := draws.next; (x, script, draws)
  | stream s => let (word, s) := s.next; (fraction word, stream s, draws)

/-- The position in a list of `n` elements that a draw points at; the last one for draws from 1 on. -/
def position (x : K) (n : Nat) : Nat := min (whole (x * ofNat n)) (n - 1)

/-- Draws a position in a list of `n` elements. -/
def index (source : Source) (draws : Draws K) (n : Nat) : Nat × Source × Draws K :=
  let (x, source, draws) := source.draw draws
  (position x n, source, draws)

end Source

end Reputation
