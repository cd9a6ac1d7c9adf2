import Reputation.Proofs.Command.Recording
import Reputation.Proofs.Document.Config

/-! # What commands do to the files

Every command reads, computes and checks before it writes, and it writes one file at most. So a run
that does not succeed leaves all files as they were, and one that succeeds changes no other file than
that of its command (`Session.run_changes`). An update is checked between the change and the
writing: what it leaves in the file is a valid configuration. -/

namespace Reputation

/-- The names of the files of a node. -/
inductive AssetFile where
  | config
  | experiences
  | statuses
  | scores
deriving DecidableEq

/-- The place of a file. -/
def Assets.place (a : Assets) : AssetFile → Place
  | .config => a.config
  | .experiences => a.experiences
  | .statuses => a.statuses
  | .scores => a.scores

/-- All files are the same, except for `out` if it is given. -/
def Assets.Keeps (out : Option AssetFile) (a b : Assets) : Prop :=
  ∀ f, out ≠ some f → b.place f = a.place f

/-- **The file that a command writes**, if it writes one. -/
def Command.output? : Command → Option AssetFile
  | .record _ => some .experiences
  | .status _ => some .statuses
  | .scores => some .scores
  | .update _ => some .config
  | .select | .describe => none

namespace Config

variable {K : Type} [Number K]

/-- **An update is the changes and then the validation** of what they made. -/
theorem update_eq (c : Config) (u : UpdateOptions) :
    c.update K u = match (applyOptions u).run.run c with
      | (.ok _, c') => (c'.validate K, c')
      | (.error e, c') => (.error e, c') := by
  unfold update applyAndValidate
  rw [run_bind]
  rcases (applyOptions u).run.run c with ⟨e | y, c'⟩
  · rfl
  · dsimp only
    rw [run_get_bind]
    cases c'.validate K <;> rfl

/-- **A changed configuration is valid.** -/
theorem validate_of_update {c c' : Config} {u : UpdateOptions}
    (h : c.update K u = (.ok (), c')) : c'.validate K = .ok () := by
  rw [update_eq] at h
  rcases hrun : (applyOptions u).run.run c with ⟨e | y, c₁⟩
  · rw [hrun] at h
    cases h
  · rw [hrun] at h
    obtain ⟨hvalid, rfl⟩ := Prod.mk.inj h
    exact hvalid

end Config

namespace Session

variable {K α β : Type} {P Q : Assets → Assets → Prop}

/-! ### Steps and files -/

/-- **A step that does what `P` tells or nothing**: if it goes on, the files are related by `P` to
those before, and if it stops, they are the same. -/
structure Changes (P : Assets → Assets → Prop) (x : Running α) : Prop where
  ok {s s' : Session} {y : α} (h : x.run.run s = (.ok y, s')) : P s.assets s'.assets
  error {s s' : Session} {e : Refusal} (h : x.run.run s = (.error e, s')) : s'.assets = s.assets

/-- A step that leaves the files alone. -/
def Quiet (x : Running α) : Prop := Changes (fun a b => b = a) x

theorem Changes.imp {x : Running α} (hx : Changes P x) (h : ∀ a b, P a b → Q a b) :
    Changes Q x :=
  ⟨fun hrun => h _ _ (hx.ok hrun), hx.error⟩

theorem Quiet.changes {x : Running α} (hx : Quiet x) (h : ∀ a, P a a) : Changes P x :=
  hx.imp fun a b hab => by rw [hab]; exact h a

/-- **What comes after quiet steps** does the same as alone. -/
theorem Quiet.bind {x : Running α} {g : α → Running β} (hx : Quiet x)
    (hg : ∀ y, Changes P (g y)) : Changes P (x >>= g) := by
  constructor
  · intro s s' z h
    rw [run_bind] at h
    rcases hrun : x.run.run s with ⟨e | y, t⟩
    · rw [hrun] at h
      cases h
    · rw [hrun] at h
      rw [← hx.ok hrun]
      exact (hg y).ok h
  · intro s s' e h
    rw [run_bind] at h
    rcases hrun : x.run.run s with ⟨e' | y, t⟩
    · rw [hrun] at h
      cases h
      exact hx.error hrun
    · rw [hrun] at h
      rw [← hx.ok hrun]
      exact (hg y).error h

/-- Telling at the end changes nothing and does not stop. -/
theorem Changes.tell {x : Running Unit} (hx : Changes P x) (ns : List Notice) :
    Changes P (do x; tell ns) := by
  constructor
  · intro s s' z h
    rw [run_bind] at h
    rcases hrun : x.run.run s with ⟨e | y, t⟩
    · rw [hrun] at h
      cases h
    · rw [hrun] at h
      cases h
      have ht : P s.assets t.assets := hx.ok hrun
      exact ht
  · intro s s' e h
    rw [run_bind] at h
    rcases hrun : x.run.run s with ⟨e' | y, t⟩
    · rw [hrun] at h
      cases h
      exact hx.error hrun
    · rw [hrun] at h
      cases h

theorem quiet_of_run {x : Running α} (h : ∀ s, (x.run.run s).2.assets = s.assets) : Quiet x := by
  constructor
  · intro s s' y hrun
    rw [← h s, hrun]
  · intro s s' e hrun
    rw [← h s, hrun]

theorem quiet_pure (x : α) : Quiet (pure x : Running α) := quiet_of_run fun _ => rfl

theorem changes_throw (e : Refusal) : Changes P (throw e : Running α) := by
  constructor
  · intro s s' y h
    cases h
  · intro s s' e' h
    cases h
    rfl

theorem quiet_tell (ns : List Notice) : Quiet (tell ns) := quiet_of_run fun _ => rfl

theorem quiet_get : Quiet (get : Running Session) := quiet_of_run fun _ => rfl

theorem quiet_unlessError (r : Except TrustError α) : Quiet (unlessError r) :=
  quiet_of_run fun s => by rw [run_unlessError]

theorem quiet_unlessFault (r : Except Fault α) : Quiet (unlessFault r) :=
  quiet_of_run fun s => by rw [run_unlessFault]

theorem quiet_loadRecords (o : Occasion) (schema : Schema α) (name : String) (p : Place) :
    Quiet (loadRecords o schema name p) := by
  unfold loadRecords
  cases p.contents? with
  | none => exact (quiet_tell _).bind fun _ => quiet_pure _
  | some b => exact quiet_unlessError _

theorem quiet_loadExperiences (o : Occasion) : Quiet (loadExperiences o) :=
  quiet_get.bind fun _ => (quiet_loadRecords _ _ _ _).bind fun _ => quiet_pure _

theorem quiet_loadRoster (o : Occasion) : Quiet (loadRoster o) :=
  quiet_get.bind fun _ => (quiet_loadRecords _ _ _ _).bind fun _ => quiet_pure _

theorem quiet_assess [Number K] (o : Occasion) (c : Config) :
    Quiet (assess o c : Running (Assessment K)) := by
  unfold assess
  refine (quiet_loadExperiences o).bind fun store => ?_
  refine (quiet_loadRoster o).bind fun roster => ?_
  refine (quiet_unlessFault _).bind fun es => ?_
  refine (quiet_unlessError _).bind fun context => ?_
  refine (quiet_unlessError _).bind fun provider => ?_
  refine (quiet_tell _).bind fun _ => ?_
  dsimp only
  refine (quiet_tell _).bind fun _ => ?_
  split
  · exact quiet_pure _
  · exact changes_throw _

/-! ### Saving -/

/-- **Writing one file**: the new place is put in only after the writing went well. -/
theorem changes_write (write : Assets → Except TrustError Place) (put : Assets → Place → Assets)
    (h : ∀ a p, write a = .ok p → P a (put a p)) : Changes P (do
      let s ← get
      let place ← unlessError (write s.assets)
      set { s with assets := put s.assets place } : Running Unit) := by
  constructor
  · intro s s' y hrun
    rw [run_get_bind, run_bind, run_unlessError] at hrun
    cases hw : write s.assets with
    | error e =>
      rw [hw] at hrun
      cases hrun
    | ok p =>
      rw [hw] at hrun
      cases hrun
      exact h s.assets p hw
  · intro s s' e hrun
    rw [run_get_bind, run_bind, run_unlessError] at hrun
    cases hw : write s.assets with
    | error e' =>
      rw [hw] at hrun
      cases hrun
      rfl
    | ok p =>
      rw [hw] at hrun
      cases hrun

theorem changes_saveExperiences (store : Experiences) :
    Changes (Assets.Keeps (some .experiences)) (saveExperiences store) := by
  refine (quiet_unlessFault _).bind fun rs => ?_
  refine changes_write (fun a => a.experiences.writeTable (Schema.experience.save rs))
    (fun a p => { a with experiences := p }) fun a p _ f hf => ?_
  cases f with
  | experiences => exact absurd rfl hf
  | _ => rfl

theorem changes_saveRoster (roster : Roster) :
    Changes (Assets.Keeps (some .statuses)) (saveRoster roster) := by
  refine changes_write (fun a => a.statuses.writeTable
    (Schema.status.save (StatusRecord.ofRoster roster)))
    (fun a p => { a with statuses := p }) fun a p _ f hf => ?_
  cases f with
  | statuses => exact absurd rfl hf
  | _ => rfl

theorem changes_saveScores [Number K] (rs : List (ScoreRecord K)) :
    Changes (Assets.Keeps (some .scores)) (saveScores rs) := by
  refine changes_write (fun a => a.scores.writeTable (Schema.score.save rs))
    (fun a p => { a with scores := p }) fun a p _ f hf => ?_
  cases f with
  | scores => exact absurd rfl hf
  | _ => rfl

theorem changes_saveConfig (c : Config) : Changes (fun a b => a.Keeps (some .config) b ∧
    (b.config.read >>= Codec.config.load) = .ok c) (saveConfig c) := by
  refine changes_write (fun a => a.config.writeDocument (Codec.config.save c))
    (fun a p => { a with config := p }) fun a p hp => ⟨fun f hf => ?_, ?_⟩
  · cases f with
    | config => exact absurd rfl hf
    | _ => rfl
  · obtain ⟨-, rfl⟩ := Place.write_eq_ok_iff.mp hp
    exact Config.lawful.load_save c

/-! ### Commands -/

/-- **What a command may do to the files** if it succeeds: only its own is another one, and if this
is the configuration, the file holds the updated one, which is valid. -/
def Allows (K : Type) [Number K] (c : Config) (command : Command) (a b : Assets) : Prop :=
  a.Keeps command.output? b ∧
    ∀ u, command = .update u → ∃ c', c.update K u = (.ok (), c') ∧ c'.validate K = .ok () ∧
      (b.config.read >>= Codec.config.load) = .ok c'

theorem changes_record (o : Occasion) (c : Config) (r : RecordOptions) :
    Changes (Assets.Keeps (some .experiences)) (record o c r) :=
  (quiet_unlessError _).bind fun _ => (quiet_loadExperiences o).bind fun _ =>
    (quiet_unlessFault _).bind fun store => (changes_saveExperiences store).tell _

theorem changes_setStatus (o : Occasion) (r : StatusOptions) :
    Changes (Assets.Keeps (some .statuses)) (setStatus o r) :=
  (quiet_unlessError _).bind fun _ => (quiet_loadRoster o).bind fun _ =>
    (changes_saveRoster _).tell _

theorem changes_scores [Number K] (o : Occasion) (c : Config) :
    Changes (Assets.Keeps (some .scores)) (scores K o c) :=
  (quiet_assess o c).bind fun _ => (quiet_tell _).bind fun _ =>
    (changes_saveScores _).tell _

theorem quiet_select [Number K] (o : Occasion) (c : Config) : Quiet (select K o c) := by
  refine (quiet_assess o c).bind fun a => (quiet_loadRoster o).bind fun roster => ?_
  dsimp only
  split
  · exact (quiet_tell _).bind fun _ => quiet_tell _
  · exact quiet_tell _

theorem changes_update (K : Type) [Number K] (c : Config) (u : UpdateOptions) :
    Changes (fun a b => a.Keeps (some .config) b ∧ ∃ c', c.update K u = (.ok (), c') ∧
      c'.validate K = .ok () ∧ (b.config.read >>= Codec.config.load) = .ok c') (update K c u) := by
  unfold update
  split
  · next c' hupdate =>
    have hvalid : c'.validate K = .ok () := Config.validate_of_update hupdate
    exact (changes_saveConfig c').imp fun a b h => ⟨h.1, c', hupdate, hvalid, h.2⟩
  · exact changes_throw _

theorem changes_perform (K : Type) [Number K] (o : Occasion) (c : Config) (command : Command) :
    Changes (Allows K c command) (perform K o c command) := by
  have hself : ∀ a : Assets, a.Keeps none a := fun _ _ _ => rfl
  cases command with
  | record r => exact (changes_record o c r).imp fun a b h => ⟨h, fun u hu => by cases hu⟩
  | scores => exact (changes_scores o c).imp fun a b h => ⟨h, fun u hu => by cases hu⟩
  | select => exact (quiet_select o c).changes fun a => ⟨hself a, fun u hu => by cases hu⟩
  | describe => exact (quiet_tell _).changes fun a => ⟨hself a, fun u hu => by cases hu⟩
  | status r => exact (changes_setStatus o r).imp fun a b h => ⟨h, fun u hu => by cases hu⟩
  | update u =>
    refine (changes_update K c u).imp fun a b h => ⟨h.1, fun u' hu => ?_⟩
    cases hu
    exact h.2

/-- **What a run does to the files.** If it stops with an error or a fault, all of them are as they
were. If it succeeds, the arguments are a command, and no file but its own is another one; after an
update the file of the configuration holds the updated one, and this is valid. -/
theorem run_changes (K : Type) [Number K] (o : Occasion) (args : List String) (a : Assets) :
    match run K o args a with
    | (.error _, s) => s.assets = a
    | (.ok (), s) => ∃ c command, (a.config.read >>= Codec.config.load) = .ok c ∧
        Command.parse? args = some command ∧ Allows K c command a s.assets := by
  unfold run execute
  rw [run_get_bind, run_bind, run_unlessError]
  cases hread : a.config.read with
  | error e => rfl
  | ok contents =>
    dsimp only [mapError_ok]
    rw [run_bind, run_unlessError]
    cases hload : Codec.config.load contents with
    | error e => rfl
    | ok c =>
      dsimp only [mapError_ok]
      cases hparse : Command.parse? args with
      | none => rfl
      | some command =>
        have hc := changes_perform K o c command
        dsimp only
        rcases hrun : (perform K o c command).run.run { assets := a, notices := [] } with
          ⟨e | y, s⟩
        · exact hc.error hrun
        · exact ⟨c, command, hload, rfl, hc.ok hrun⟩

end Session

end Reputation
