import Reputation.Environment

/-!
# Truncation of large contexts

A context of too many peers is cut down before trust is computed. `Truncation.select` takes the
pre-trusted peers, then those of most trust in the previous assessment, and fills up with peers drawn
from the rest; the local peer comes last.
-/

namespace Reputation

open Number

namespace Truncation

variable {K : Type} [Number K]

/-- The peers of most trust in an assessment, at most `count`, from the most trusted on; equal ones
keep their order, and there is no one without positive trust. -/
def top (a : Assessment K) (count : Nat) : List Peer :=
  let positive := a.toList.filter fun (_, x) => lt zero x
  ((positive.mergeSort fun p q => le q.2 p.2).take count).map Prod.fst

/-- Adds a peer to a selection that has room for it and does not hold it. -/
def enlist (capacity : Nat) (selected : List Peer) (p : Peer) : List Peer :=
  if selected.length < capacity && !selected.any p.same then selected ++ [p] else selected

/-- The peers that are selected without a draw: pre-trusted ones in their order, then the most
trusted ones of the previous assessment who are candidates still. -/
def settled (c : Context) (previous : Option (Assessment K)) (size : Nat) : List Peer :=
  let capacity := size - 1
  let preTrusted := c.others.filter c.preTrusted.contains
  let trusted := match previous with
    | some a => (top a (size / 10)).filter fun (p : Peer) => c.others.any p.same
    | none => []
  trusted.foldl (enlist capacity) (preTrusted.foldl (enlist capacity) [])

/-- Takes the element at a position out of a list; the last element moves into its place. -/
def swapRemove (ps : List Peer) (i : Nat) : List Peer :=
  match ps.getLast? with
  | some p => (ps.set i p).dropLast
  | none => []

/-- Draws peers from the candidates, one after the other, for a number of free places. -/
def fill (source : Source) (draws : Draws K) :
    Nat → List Peer → List Peer × Source × Draws K
  | 0, _ => ([], source, draws)
  | room + 1, candidates =>
    let (i, source', draws') := source.index draws candidates.length
    match candidates[i]? with
    | none => ([], source, draws)
    | some p =>
      let (ps, source, draws) := fill source' draws' room (swapRemove candidates i)
      (p :: ps, source, draws)

/-- **The selected peers**: at most `size` of them, the local one last. -/
def select (c : Context) (previous : Option (Assessment K)) (size : Nat) (source : Source)
    (draws : Draws K) : List Peer × Source × Draws K :=
  let chosen := settled c previous size
  let candidates := c.others.filter fun p => !chosen.any p.same
  let (drawn, source, draws) := fill source draws (size - 1 - chosen.length) candidates
  (chosen ++ drawn ++ [c.home], source, draws)

end Truncation

end Reputation
