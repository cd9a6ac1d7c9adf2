import Reputation.Number.Numeral

/-!
# Errors and faults

An operation ends in one of two ways that are not an answer. `TrustError` is a refusal that names
its cause: the caller may go on. `Fault` is a computation that stops for good, because a counter
leaves its 64 bits or an index leaves its vector. `TrustError.message` is the wording of a refusal.
-/

namespace Reputation

/-- The families of errors. -/
inductive ErrorKind where
  | configuration
  | fileAccess
  | argument
  | input
  | parsing
deriving Repr, DecidableEq, Inhabited

/-- The name of a family. -/
def ErrorKind.name : ErrorKind → String
  | configuration => "ConfigurationError"
  | fileAccess => "FileIOError"
  | argument => "InvalidArgument"
  | input => "IOError"
  | parsing => "ParsingError"

/-- **A refusal, by its cause.** -/
inductive TrustError where
  | sizesDiffer (left right : Nat)
  | columnsDiffer (columns entries : Nat)
  | rowsDiffer (rows entries : Nat)
  | raggedRow (index columns expected : Nat)
  | notSquare (rows columns : Nat)
  | preTrustSize (rows entries : Nat)
  | scoreCount (entries peers : Nat)
  | trustCount (entries peers : Nat)
  | duplicatePeer (id : String)
  | localPeerAbsent (id : String)
  | missingParameter (name : String)
  | malformedParameter (name value : String)
  /-- A part that the caller supplied refuses, for a reason of its own. -/
  | refused (reason : String)
  | missingPartner
  | missingResult
  | missingPeer
  | missingStatus
  | emptyLocalPeer
  | matrixTooSmall
  | selectionTooSmall
  | alphaOutOfRange (name value : String)
  | epsilonNotPositive (name value : String)
  | malformedSetting (name value : String)
  | unknownStatus (text : String)
  | unknownOutcome (text : String)
  | unknownAlgorithm (text : String)
  | badNumeral (cause : NumeralError)
  | badDocument
  | badTable
  | unwritableTable
  | missingFile
  | unwritableFile
deriving Repr, DecidableEq, Inhabited

namespace TrustError

/-- The family of an error. -/
def kind : TrustError → ErrorKind
  | emptyLocalPeer | matrixTooSmall | selectionTooSmall | alphaOutOfRange .. | epsilonNotPositive ..
  | malformedSetting .. => .configuration
  | unknownStatus _ | unknownOutcome _ | unknownAlgorithm _ | badNumeral _ | badDocument => .parsing
  | badTable | unwritableTable => .fileAccess
  | missingFile | unwritableFile => .input
  | _ => .argument

/-- The cause of an error in words. -/
def reason : TrustError → String
  | sizesDiffer a b => s!"vector sizes differ: {a} != {b}"
  | columnsDiffer c n => s!"matrix has {c} columns but vector has {n} entries"
  | rowsDiffer r n => s!"matrix has {r} rows but vector has {n} entries"
  | raggedRow i c e => s!"row {i} has {c} columns, expected {e}"
  | notSquare r c => s!"trust matrix must be square, got {r}x{c}"
  | preTrustSize r n => s!"trust matrix has {r} rows but pre-trust vector has {n} entries"
  | scoreCount v n => s!"score vector has {v} entries for {n} nodes"
  | trustCount v n => s!"trust vector has {v} entries for {n} nodes"
  | duplicatePeer id => s!"duplicate node in trust context: {id}"
  | localPeerAbsent id => s!"local node {id} is not part of the trust context"
  | missingParameter name => s!"missing parameter: {name}"
  | malformedParameter name value => s!"malformed parameter {name}: {value}"
  | refused text => text
  | missingPartner => "Missing partner node."
  | missingResult => "Missing result."
  | missingPeer => "Missing node."
  | missingStatus => "Missing status."
  | emptyLocalPeer => "local node must not be empty"
  | matrixTooSmall => "max matrix size must be at least 2"
  | selectionTooSmall => "max selected nodes must be positive"
  | alphaOutOfRange name value => s!"{name} must be within [0, 1], got {value}"
  | epsilonNotPositive name value => s!"{name} must be positive, got {value}"
  | malformedSetting name value =>
    ErrorKind.argument.name ++ ": " ++ s!"malformed parameter {name}: {value}"
  | unknownStatus text => s!"Invalid node status: {text}"
  | unknownOutcome text => s!"Invalid interaction result: {text}"
  | unknownAlgorithm text => s!"unknown trust algorithm: {text}"
  | badNumeral cause => cause.message
  | badDocument => "the document cannot be read"
  | badTable => "the table cannot be read"
  | unwritableTable => "the table cannot be written"
  | missingFile => "the file cannot be opened"
  | unwritableFile => "the file cannot be written"

/-- The full text of an error: its family and its cause. -/
def message (e : TrustError) : String := e.kind.name ++ ": " ++ e.reason

end TrustError

/-- **A stop for good.** -/
inductive Fault where
  /-- A counter or a duration left its 64 bits. -/
  | counterOverflow
  /-- An index pointed outside of a vector or a matrix. -/
  | outOfRange
  /-- A vector or a matrix had more entries than can be held. -/
  | noRoom
deriving Repr, DecidableEq, Inhabited

/-- What an operation may end in instead of an answer. -/
inductive Failure where
  | error (cause : TrustError)
  | fault (cause : Fault)
deriving Repr, DecidableEq, Inhabited

instance : MonadLift (Except TrustError) (Except Failure) where
  monadLift x := x.mapError .error

instance : MonadLift (Except Fault) (Except Failure) where
  monadLift x := x.mapError .fault

end Reputation
