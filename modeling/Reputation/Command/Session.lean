import Reputation.Command.Description
import Reputation.Command.Update
import Reputation.Document.Codec
import Reputation.Pipeline
import Reputation.Place
import Reputation.Table.Schema

/-!
# Running commands

A command works on four files in one directory: the configuration, the experiences, the statuses and
the scores. `Session.run` loads the configuration, reads the arguments and runs the command; it
returns how that ended, the files as they are then, and the notices on the way.
-/

namespace Reputation

/-- **The files of a node.** -/
structure Assets where
  config : Place
  experiences : Place
  statuses : Place
  scores : Place
deriving Repr, DecidableEq, Inhabited

/-- What a run finds besides its files: the directory as it is shown, the time, and where its draws
come from. -/
structure Occasion where
  directory : String
  now : Instant
  truncation : Source
  selection : Source
  anchoring : Source

/-- Why a run did not succeed. -/
inductive Refusal where
  /-- The arguments are no command. -/
  | usage
  | failure (cause : Failure)
deriving Repr, DecidableEq, Inhabited

/-- The state of a run. -/
structure Session where
  assets : Assets
  notices : List Notice

/-- A run that may stop halfway. -/
abbrev Running := ExceptT Refusal (StateM Session)

namespace Session

variable {K : Type} [Number K]

/-! ### Steps -/

/-- Tells some notices. -/
def tell (ns : List Notice) : Running Unit := modify fun s => { s with notices := s.notices ++ ns }

/-- Goes on with an answer, or stops with its error. -/
def unlessError {α : Type} (r : Except TrustError α) : Running α :=
  match r with
  | .ok x => pure x
  | .error e => throw (.failure (.error e))

/-- Goes on with an answer, or stops with its fault. -/
def unlessFault {α : Type} (r : Except Fault α) : Running α :=
  match r with
  | .ok x => pure x
  | .error e => throw (.failure (.fault e))

/-- The path of a file. -/
def path (o : Occasion) (name : String) : String := o.directory ++ "/" ++ name

/-- The file name of the configuration. -/
def configFile : String := "config.json"

/-- The file name of the experiences. -/
def experiencesFile : String := "experiences.csv"

/-- The file name of the statuses. -/
def statusesFile : String := "statuses.csv"

/-- The file name of the scores. -/
def scoresFile : String := "scores.csv"

/-- The records of a file; none, with a notice, if it does not exist yet. -/
def loadRecords {α : Type} (o : Occasion) (schema : Schema α) (name : String) (p : Place) :
    Running (List α) :=
  match p.contents? with
  | some b => unlessError (schema.load b)
  | none => do
    tell [.fileMissing (path o name)]
    pure []

/-- The recorded experiences. -/
def loadExperiences (o : Occasion) : Running Experiences := do
  let rs ← loadRecords o .experience experiencesFile (← get).assets.experiences
  pure (ExperienceRecord.toStore rs)

/-- The recorded statuses. -/
def loadRoster (o : Occasion) : Running Roster := do
  let rs ← loadRecords o .status statusesFile (← get).assets.statuses
  pure (StatusRecord.toRoster rs)

/-- Saves the experiences that have a call. -/
def saveExperiences (store : Experiences) : Running Unit := do
  let rs ← unlessFault (ExperienceRecord.ofStore store)
  let s ← get
  let place ← unlessError (s.assets.experiences.writeTable (Schema.experience.save rs))
  set { s with assets.experiences := place }

/-- Saves the statuses. -/
def saveRoster (roster : Roster) : Running Unit := do
  let s ← get
  let rs := StatusRecord.ofRoster roster
  let place ← unlessError (s.assets.statuses.writeTable (Schema.status.save rs))
  set { s with assets.statuses := place }

/-- Saves scores. -/
def saveScores (rs : List (ScoreRecord K)) : Running Unit := do
  let s ← get
  let place ← unlessError (s.assets.scores.writeTable (Schema.score.save rs))
  set { s with assets.scores := place }

/-- Saves the configuration. -/
def saveConfig (c : Config) : Running Unit := do
  let s ← get
  let place ← unlessError (s.assets.config.writeDocument (Codec.config.save c))
  set { s with assets.config := place }

/-! ### Commands -/

/-- An option that has to be given. -/
def given (missing : TrustError) (option : Option String) : Except TrustError String :=
  match option with
  | some value => .ok value
  | none => .error missing

/-- The interaction that some options describe; the local peer observes unless another one is
named. -/
def interaction (c : Config) (r : RecordOptions) : Except TrustError (Peer × Peer × Outcome) := do
  let observer := (r.observer.map Peer.named).getD c.homePeer
  let partner ← given .missingPartner r.partner
  let outcome ← Outcome.read (← given .missingResult r.outcome)
  .ok (observer, .named partner, outcome)

/-- Records an interaction. -/
def record (o : Occasion) (c : Config) (r : RecordOptions) : Running Unit := do
  let (observer, partner, outcome) ← unlessError (interaction c r)
  let store ← loadExperiences o
  let store ← unlessFault (store.record observer partner outcome o.now)
  saveExperiences store
  tell [.recorded outcome.name observer partner (path o experiencesFile)]

/-- The status that some options describe. -/
def statusOf (r : StatusOptions) : Except TrustError (Peer × Status) := do
  let peer ← given .missingPeer r.peer
  let status ← Status.read (← given .missingStatus r.status)
  .ok (.named peer, status)

/-- Sets the status of a peer. -/
def setStatus (o : Occasion) (r : StatusOptions) : Running Unit := do
  let (peer, status) ← unlessError (statusOf r)
  let roster ← loadRoster o
  saveRoster (roster.update peer status)
  tell [.statusSet peer status.name (path o statusesFile)]

/-- Every peer that the files or the configuration name. -/
def knownPeers (c : Config) (roster : Roster) (es : List (Peer × Peer × Experience)) : List Peer :=
  roster.peers ++ es.flatMap (fun (observer, partner, _) => [observer, partner]) ++
    c.preTrustedPeers.peers

/-- The name of the one store of a run. -/
def storeId : StoreId := 0

/-- Computes trust over every known peer. -/
def assess (o : Occasion) (c : Config) : Running (Assessment K) := do
  let store ← loadExperiences o
  let roster ← loadRoster o
  let es ← unlessFault store.interactions
  let context ← unlessError (c.context (knownPeers c roster es) storeId)
  let provider ← unlessError (Pipeline.provider? c)
  tell [Pipeline.created c]
  let env : Environment K :=
    { experiences := fun _ => store, roster, clock := .fixed o.now, draws := .ofList [],
      notices := [] }
  let (result, _, env) := provider context (Pipeline.start o.truncation) env
  tell env.notices
  match result with
  | .ok a => pure a
  | .error failure => throw (.failure failure)

/-- Computes the scores of all known peers and saves them. -/
def scores (K : Type) [Number K] (o : Occasion) (c : Config) : Running Unit := do
  let a : Assessment K ← assess o c
  tell (a.toList.map fun (p, x) => .score p (Number.fixed 6 x))
  saveScores (ScoreRecord.ofAssessment a)
  tell [.scoresSaved (path o scoresFile)]

/-- Selects the peers to talk to. -/
def select (K : Type) [Number K] (o : Occasion) (c : Config) : Running Unit := do
  let a : Assessment K ← assess o c
  let roster ← loadRoster o
  let env : Environment K :=
    { experiences := fun _ => .empty, roster, clock := .fixed o.now, draws := .ofList [],
      notices := [] }
  let (ps, _, _) := (Pipeline.selector c a).several (o.anchoring, o.selection) env
  if ps.isEmpty then tell [.nothingSelected]
  tell (ps.map .selected)

/-- Changes the configuration. -/
def update (K : Type) [Number K] (c : Config) (options : UpdateOptions) : Running Unit :=
  match c.update K options with
  | (.ok (), c) => saveConfig c
  | (.error e, _) => throw (.failure (.error e))

/-- Runs a command. -/
def perform (K : Type) [Number K] (o : Occasion) (c : Config) : Command → Running Unit
  | .record r => record o c r
  | .scores => scores K o c
  | .select => select K o c
  | .describe => tell [.settings c.describe]
  | .status r => setStatus o r
  | .update u => update K c u

/-- A run with the given arguments. -/
def execute (K : Type) [Number K] (o : Occasion) (args : List String) : Running Unit := do
  let contents ← unlessError (← get).assets.config.read
  let c ← unlessError (Codec.config.load contents)
  match Command.parse? args with
  | none => throw .usage
  | some command => perform K o c command

/-- **The outcome of a run** that computes in `K`. -/
def run (K : Type) [Number K] (o : Occasion) (args : List String) (assets : Assets) :
    Except Refusal Unit × Session :=
  (execute K o args).run.run { assets, notices := [] }

end Session

end Reputation
