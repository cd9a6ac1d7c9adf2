import Reputation.Selector.Basic

/-!
# Selection in proportion to trust

`Selector.weighted` draws peers with a chance in proportion to their trust, several of them without
putting one back. A peer without positive trust is never drawn.
-/

namespace Reputation

open Number

namespace Selector

variable {K : Type} [Number K]

/-- The peers of positive trust, with it. -/
def eligible (a : Assessment K) : List (Peer × K) := a.toList.filter fun (_, x) => lt zero x

/-- The first position at which the trust summed up so far, `sum` before the list, is above the
draw. -/
def bucket? (draw : K) : K → List (Peer × K) → Option Nat
  | _, [] => none
  | sum, (_, x) :: ps =>
    if lt draw (sum + x) then some 0 else (bucket? draw (sum + x) ps).map (· + 1)

/-- The sum of the trust in some peers. -/
def total (ps : List (Peer × K)) : K := Number.sum (ps.map Prod.snd)

/-- The position that a draw in `[0, 1)` points at; the last one, if rounding leaves none. -/
def pick (ps : List (Peer × K)) (x : K) : Nat :=
  (bucket? (x * total ps) zero ps).getD (ps.length - 1)

/-- Draws one of some peers; there is no draw if they have no trust. -/
def draw (ps : List (Peer × K)) (source : Source) (draws : Draws K) :
    Option Nat × Source × Draws K :=
  if ps.isEmpty || le (total ps) zero then (none, source, draws)
  else
    let (x, source, draws) := source.draw draws
    (some (pick ps x), source, draws)

/-- Draws up to a number of peers, none of them twice. -/
def drawSeveral (source : Source) (draws : Draws K) :
    Nat → List (Peer × K) → List Peer × Source × Draws K
  | 0, _ => ([], source, draws)
  | n + 1, ps =>
    match draw ps source draws with
    | (none, source, draws) => ([], source, draws)
    | (some i, source, draws) =>
      let (chosen, source, draws) := drawSeveral source draws n (ps.eraseIdx i)
      (((ps[i]?).map Prod.fst).toList ++ chosen, source, draws)

/-- **A selector in proportion to trust**, for at most `limit` peers at once. Where there are no more
than that, all are chosen without a draw. -/
def weighted (limit : Nat) (a : Assessment K) : Selector K Source where
  one source env :=
    let (i, source, draws) := draw (eligible a) source env.draws
    (i.bind fun i => ((eligible a)[i]?).map Prod.fst, source, { env with draws })
  several source env :=
    if (eligible a).length ≤ limit then ((eligible a).map Prod.fst, source, env)
    else
      let (ps, source, draws) := drawSeveral source env.draws limit (eligible a)
      (ps, source, { env with draws })

end Selector

end Reputation
