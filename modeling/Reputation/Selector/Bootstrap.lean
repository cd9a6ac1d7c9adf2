import Reputation.Selector.Basic

/-!
# Selection with a way back to the pre-trusted peers

`Selector.bootstrap` adds pre-trusted peers to what another selector chooses, so that the local peer
stays connected: all active ones if it is pre-trusted itself, else one of them at random, and all
pre-trusted ones if none is active.
-/

namespace Reputation

namespace Selector

variable {K σ : Type} [Number K]

/-- The pre-trusted peers of a context other than the local one. -/
def anchors (c : Context) : List Peer := c.preTrusted.peers.filter fun p => !p.same c.home

/-- The anchors who answer. -/
def activeAnchors (c : Context) (roster : Roster) : List Peer :=
  (anchors c).filter fun p => roster.status p == .active

/-- Draws one of some peers. -/
def anyOf (ps : List Peer) (source : Source) (draws : Draws K) :
    Option Peer × Source × Draws K :=
  if ps.isEmpty then (none, source, draws)
  else
    let (i, source, draws) := source.index draws ps.length
    (ps[i]?, source, draws)

/-- Adds those peers to a selection that it does not hold. -/
def join (selected additional : List Peer) : List Peer :=
  additional.foldl (fun ps p => if ps.any p.same then ps else ps ++ [p]) selected

/-- **A selector with a way back** to the pre-trusted peers of a context. -/
def bootstrap (c : Context) (inner : Selector K σ) : Selector K (Source × σ) where
  one := fun (source, own) env =>
    match inner.one own env with
    | (some p, own, env) => (some p, (source, own), env)
    | (none, own, env) =>
      let active := activeAnchors c env.roster
      let (p, source, draws) :=
        anyOf (if active.isEmpty then anchors c else active) source env.draws
      (p, (source, own), { env with draws })
  several := fun (source, own) env =>
    let (selected, own, env) := inner.several own env
    let selected := selected.filter fun p => !p.same c.home
    let active := activeAnchors c env.roster
    if active.isEmpty then (join selected (anchors c), (source, own), env)
    else if c.preTrusted.contains c.home then (join selected active, (source, own), env)
    else
      let (p, source, draws) := anyOf active source env.draws
      (join selected p.toList, (source, own), { env with draws })

end Selector

end Reputation
