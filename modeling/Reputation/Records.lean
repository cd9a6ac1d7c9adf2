import Reputation.Context
import Reputation.Experience.Store
import Reputation.Roster

/-!
# Records

The rows in which experiences, statuses and scores are kept in files. Peers are kept by identity. The
records of a store or a roster are in ascending order, and a later record of the same key replaces an
earlier one when they are read back.
-/

namespace Reputation

/-- **A row about an experience.** -/
structure ExperienceRecord where
  observer : String
  partner : String
  successes : UInt64
  failures : UInt64
  updated : UInt64
deriving Repr, DecidableEq, Inhabited

namespace ExperienceRecord

/-- The row of an experience between two peers. -/
def ofExperience (observer partner : Peer) (e : Experience) : ExperienceRecord :=
  ⟨observer.id, partner.id, e.successes, e.failures, e.updated.seconds⟩

/-- The experience that a row describes. -/
def experience (r : ExperienceRecord) : Experience := ⟨r.successes, r.failures, ⟨r.updated⟩⟩

/-- The rows of a store: one for each experience with a call. -/
def ofStore (s : Experiences) : Except Fault (List ExperienceRecord) :=
  s.interactions.map fun es => es.map fun (o, p, e) => ofExperience o p e

/-- The store of some rows. -/
def toStore (rs : List ExperienceRecord) : Experiences :=
  rs.foldl (fun s r => s.put (.named r.observer) (.named r.partner) r.experience) .empty

end ExperienceRecord

/-- **A row about a status.** -/
structure StatusRecord where
  peer : String
  status : Status
deriving Repr, DecidableEq, Inhabited

namespace StatusRecord

/-- The rows of a roster. -/
def ofRoster (r : Roster) : List StatusRecord := r.toList.map fun (p, s) => ⟨p.id, s⟩

/-- The roster of some rows. -/
def toRoster (rs : List StatusRecord) : Roster :=
  rs.foldl (fun roster r => roster.update (.named r.peer) r.status) .empty

end StatusRecord

/-- **A row about a score.** -/
structure ScoreRecord (K : Type) where
  peer : String
  score : K
deriving Repr, DecidableEq, Inhabited

/-- The rows of an assessment. -/
def ScoreRecord.ofAssessment {K : Type} (a : Assessment K) : List (ScoreRecord K) :=
  a.toList.map fun (p, x) => ⟨p.id, x⟩

end Reputation
