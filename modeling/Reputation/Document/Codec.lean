import Reputation.Config
import Reputation.Document.Decode
import Reputation.Records

/-!
# Documents of the domain

How peers, experiences, records, parameters and configurations are written as documents and read
back. Each codec names its fields once, in the order in which they are written.
-/

namespace Reputation

open Document

/-- **A way to keep values in documents.** -/
structure Codec (α : Type) where
  encode : α → Document
  decode? : Document → Option α

namespace Codec

/-! ### Names -/

/-- Values that are known by a name. -/
def named {α : Type} (name : α → String) (ofName? : String → Option α) : Codec α where
  encode x := Document.ofString (name x)
  decode? := choice? ofName?

/-- Statuses. -/
def status : Codec Status := named Status.name Status.ofName?

/-- Outcomes. -/
def outcome : Codec Outcome := named Outcome.name Outcome.ofName?

/-- Algorithms. -/
def algorithm : Codec Algorithm := named Algorithm.name Algorithm.ofName?

/-! ### Simple values -/

/-- Texts. -/
def text : Codec String := ⟨Document.ofString, text?⟩

/-- 64-bit counts. -/
def word : Codec UInt64 := ⟨fun n => Document.ofNat n.toNat, word?⟩

/-- 32-bit counts. -/
def halfWord : Codec UInt32 := ⟨fun n => Document.ofNat n.toNat, halfWord?⟩

/-- Numbers. -/
def number : Codec Float := ⟨Document.ofFloat, float?⟩

/-- Instants, as their seconds. -/
def instant : Codec Instant where
  encode t := word.encode t.seconds
  decode? d := (word.decode? d).map Instant.mk

/-- Values that may be missing. -/
def optional {α : Type} (c : Codec α) : Codec (Option α) where
  encode x := (x.map c.encode).getD null
  decode? := optional? c.decode?

/-- Lists of values. -/
def list {α : Type} (c : Codec α) : Codec (List α) where
  encode xs := array (xs.map c.encode)
  decode? := list? c.decode?

/-- Parameters, as an object of texts; a later value of a name replaces an earlier one. -/
def params : Codec Params where
  encode p := ofMembers (p.toList.map fun (k, v) => (k, Document.ofString v))
  decode? d := do
    let members ← d.members?
    let texts ← members.mapM fun (k, d) => (text? d).map fun v => (k, v)
    some (Params.ofList texts)

/-! ### Records -/

/-- An object of fields, whose names and values are given in one order. -/
def record (names : List String) (values : List Document) : Document :=
  ofMembers (List.zip names values)

/-- The fields of a peer. -/
def peerFields : List String := ["identity", "endpoint"]

/-- Peers. -/
def peer : Codec Peer where
  encode p := record peerFields [text.encode p.id, (optional text).encode p.endpoint]
  decode? d := do
    let [id, endpoint] ← fields? peerFields false d | none
    some { id := ← required? text? id, endpoint := ← orDefault? (optional? text?) none endpoint }

/-- The fields of an experience. -/
def experienceFields : List String := ["successful_calls", "failed_calls", "last_update_time"]

/-- Experiences. -/
def experience : Codec Experience where
  encode e := record experienceFields
    [word.encode e.successes, word.encode e.failures, instant.encode e.updated]
  decode? d := do
    let [successes, failures, updated] ← fields? experienceFields false d | none
    some { successes := ← required? word? successes, failures := ← required? word? failures,
           updated := ← required? instant.decode? updated }

/-- The fields of a row about an experience. -/
def experienceRecordFields : List String :=
  ["observer", "partner", "successful_calls", "failed_calls", "last_update"]

/-- Rows about experiences. -/
def experienceRecord : Codec ExperienceRecord where
  encode r := record experienceRecordFields
    [text.encode r.observer, text.encode r.partner, word.encode r.successes,
      word.encode r.failures, word.encode r.updated]
  decode? d := do
    let [observer, partner, successes, failures, updated] ←
      fields? experienceRecordFields false d | none
    some { observer := ← required? text? observer, partner := ← required? text? partner,
           successes := ← required? word? successes, failures := ← required? word? failures,
           updated := ← required? word? updated }

/-- The fields of a row about a status. -/
def statusRecordFields : List String := ["node", "status"]

/-- Rows about statuses. -/
def statusRecord : Codec StatusRecord where
  encode r := record statusRecordFields [text.encode r.peer, status.encode r.status]
  decode? d := do
    let [peer, state] ← fields? statusRecordFields false d | none
    some { peer := ← required? text? peer, status := ← required? status.decode? state }

/-- The fields of a row about a score. -/
def scoreRecordFields : List String := ["node", "score"]

/-- Rows about scores. -/
def scoreRecord : Codec (ScoreRecord Float) where
  encode r := record scoreRecordFields [text.encode r.peer, number.encode r.score]
  decode? d := do
    let [peer, score] ← fields? scoreRecordFields false d | none
    some { peer := ← required? text? peer, score := ← required? float? score }

/-- The fields of a configuration. -/
def configFields : List String :=
  ["local_node", "pre_trusted_nodes", "algorithm", "cache_interval", "low_com_weight",
    "min_communication", "max_matrix_size", "max_selected_nodes", "params"]

/-- **Configurations**; a missing field takes its default. -/
def config : Codec Config where
  encode c := record configFields
    [text.encode c.home, (list text).encode c.preTrusted, algorithm.encode c.algorithm,
      word.encode c.cacheInterval, halfWord.encode c.boostWeight, word.encode c.minCommunication,
      word.encode c.maxMatrixSize, word.encode c.maxSelected, params.encode c.params]
  decode? d := do
    let [home, preTrusted, method, interval, weight, least, size, selected, settings] ←
      fields? configFields true d | none
    let base := Config.default
    some { home := ← orDefault? text? base.home home
           preTrusted := ← orDefault? (list? text?) base.preTrusted preTrusted
           algorithm := ← orDefault? algorithm.decode? base.algorithm method
           cacheInterval := ← orDefault? word? base.cacheInterval interval
           boostWeight := ← orDefault? halfWord? base.boostWeight weight
           minCommunication := ← orDefault? word? base.minCommunication least
           maxMatrixSize := ← orDefault? word? base.maxMatrixSize size
           maxSelected := ← orDefault? word? base.maxSelected selected
           params := ← orDefault? params.decode? base.params settings }

/-! ### Files -/

variable {α : Type}

/-- The contents of a file that holds a value. -/
def save (c : Codec α) (x : α) : Bytes := Document.write (some 0) (c.encode x)

/-- The value that a file holds. -/
def load (c : Codec α) (contents : Bytes) : Except TrustError α :=
  match (Document.read? contents).bind c.decode? with
  | some x => .ok x
  | none => .error .badDocument

/-- A value in one line. -/
def inLine (c : Codec α) (x : α) : Bytes := Document.write none (c.encode x)

end Codec

end Reputation
