import Reputation.Peer

/-!
# Notices

What a run tells its operator on the side. A notice names what happened; `Notice.level` says how much
it matters, `Notice.text` is its wording.
-/

namespace Reputation

/-- How much a notice matters. -/
inductive Level where
  | info
  | warning
deriving Repr, DecidableEq, Inhabited

/-- The word for a level. -/
def Level.name : Level → String
  | info => "INFO"
  | warning => "WARN"

/-- **An event worth telling.** -/
inductive Notice where
  | malformedParameter (name value : String)
  | notConverged (limit : Nat)
  | created (algorithm home : String) (interval size : Nat)
  | fileMissing (path : String)
  | recorded (outcome : String) (observer partner : Peer) (path : String)
  | statusSet (peer : Peer) (status path : String)
  | score (peer : Peer) (value : String)
  | scoresSaved (path : String)
  | selected (peer : Peer)
  | nothingSelected
  | settings (text : String)
deriving Repr, DecidableEq, Inhabited

namespace Notice

/-- The level of a notice: what was made up for by a default, or missed, is a warning. -/
def level : Notice → Level
  | malformedParameter .. | notConverged _ | fileMissing _ => .warning
  | _ => .info

/-- The wording of a notice. -/
def text : Notice → String
  | malformedParameter name value => s!"Malformed trust parameter {name}={value}, using default."
  | notConverged limit => s!"Trust did not converge within {limit} iterations."
  | created algorithm home interval size =>
    s!"Created {algorithm} trust provider for {home} (cache interval {interval}s, " ++
      s!"max matrix size {size})."
  | fileMissing path => s!"\"{path}\" not found, starting empty."
  | recorded outcome observer partner path =>
    s!"Recorded {outcome} of {observer.text} with {partner.text}, " ++
      s!"experiences saved at \"{path}\"."
  | statusSet peer status path =>
    s!"Node {peer.text} is {status}, statuses saved at \"{path}\"."
  | score peer value => s!"{peer.text}: {value}"
  | scoresSaved path => s!"Scores saved at \"{path}\"."
  | selected peer => s!"Selected {peer.text}"
  | nothingSelected => "No node selected."
  | settings text => "Trust config:\n" ++ text

end Notice

end Reputation
