import Reputation.Command.Session
import Std.Time.DateTime.Timestamp

/-!
# The command line

Reads the files of a node, runs one command on them and writes back the files that it changed. The
directory is named by the environment variable `ASSETS_PATH`, or lies under the current one. Notices
and errors go to the standard error.
-/

namespace Reputation

namespace Terminal

/-- The directory of the files below the current one, where the environment does not name another. -/
def defaultDirectory : String := "peer-trust-cli/assets"

/-- The directory of the files. -/
def directory : IO String := do
  match ← IO.getEnv "ASSETS_PATH" with
  | some path => pure path
  | none => pure (((← IO.currentDir) / defaultDirectory).toString)

/-- The place of a file. -/
def place (directory name : String) : IO Place := do
  let folder := (← IO.currentDir) / directory
  if ← (folder / name).pathExists then
    pure (.file (← IO.FS.readBinFile (folder / name)).data.toList)
  else if ← folder.isDir then pure .free
  else pure .nowhere

/-- The files in a directory. -/
def assets (directory : String) : IO Assets := do
  pure { config := ← place directory Session.configFile
         experiences := ← place directory Session.experiencesFile
         statuses := ← place directory Session.statusesFile
         scores := ← place directory Session.scoresFile }

/-- Writes a file that was changed. -/
def keep (directory name : String) (before after : Place) : IO Unit := do
  match after with
  | .file contents =>
    if before ≠ after then
      IO.FS.writeBinFile ((← IO.currentDir) / directory / name) ⟨contents.toArray⟩
  | _ => pure ()

/-- Writes the files that were changed. -/
def keepAll (directory : String) (before after : Assets) : IO Unit := do
  keep directory Session.configFile before.config after.config
  keep directory Session.experiencesFile before.experiences after.experiences
  keep directory Session.statusesFile before.statuses after.statuses
  keep directory Session.scoresFile before.scores after.scores

/-- A source of draws of its own. -/
def entropy : IO Source := do
  let bytes ← IO.getRandomBytes 8
  pure (.stream (.seeded (bytes.data.foldl (fun n b => n * 256 + b.toUInt64) 0)))

/-- The seconds since the epoch. -/
def now : IO Instant := do
  let t ← Std.Time.Timestamp.now
  pure ⟨UInt64.ofNat t.toSecondsSinceUnixEpoch.val.toNat⟩

/-- The exit code of a run, after what went wrong is told. -/
def report : Except Refusal Unit → IO UInt32
  | .ok () => pure 0
  | .error .usage => do
    IO.eprintln "usage: record | scores | select | show | status | update, with options"
    pure 2
  | .error (.failure (.error e)) => do
    IO.eprintln ("Error: " ++ e.message)
    pure 1
  | .error (.failure (.fault _)) => do
    IO.eprintln "Error: a counter is out of range"
    pure 101

/-- One run on the files of the node. -/
def run (args : List String) : IO UInt32 := do
  let directory ← directory
  let before ← assets directory
  let occasion : Occasion :=
    { directory, now := ← now, truncation := ← entropy, selection := ← entropy,
      anchoring := ← entropy }
  let (outcome, session) := Session.run Float occasion args before
  for n in session.notices do
    IO.eprintln (n.level.name ++ " " ++ n.text)
  keepAll directory before session.assets
  report outcome

end Terminal

end Reputation

/-- Runs one command. -/
def main (args : List String) : IO UInt32 := Reputation.Terminal.run args
