import Reputation.Command.Session
import Reputation.Proofs.Place
import Reputation.Proofs.Records
import Reputation.Proofs.Table.Schema

/-! # Recording in files

A run that records an interaction loads the experiences, records and saves (`Session.leaves_record`).
Saving drops what has no call, sorts the rest and forgets endpoints, but the store that is loaded
from a saved file goes on like the saved one. So runs that record one interaction each leave the same
files as one run that records all of them in one store (`Session.recordEach_iff`). -/

namespace Reputation

namespace Session

/-! ### Runs -/

/-- The files after a run that has to succeed. -/
def leaves (x : Running Unit) (a : Assets) : Except Refusal Assets :=
  let (answer, s) := x.run.run { assets := a, notices := [] }
  answer.map fun _ => s.assets

/-- The interaction that a command records. -/
def interactionAt (c : Config) (cmd : Occasion × RecordOptions) : Except TrustError Interaction :=
  (interaction c cmd.2).map fun (observer, partner, outcome) =>
    ⟨observer, partner, outcome, cmd.1.now⟩

/-- **One interaction after the other**, each recorded in a run of its own. -/
def recordEach (c : Config) (cmds : List (Occasion × RecordOptions)) (a : Assets) :
    Except Refusal Assets :=
  cmds.foldlM (fun a cmd => leaves (record cmd.1 c cmd.2) a) a

/-- **All interactions in one store**: load once, record in order, save once. -/
def recordAll (o : Occasion) (is : List Interaction) : Running Unit := do
  let store ← loadExperiences o
  let store ← unlessFault (store.enact is)
  saveExperiences store

/-- The store of a file; an empty one if there is no file. -/
def storeOf (p : Place) : Except TrustError Experiences :=
  match p.contents? with
  | some b => (Schema.experience.load b).map ExperienceRecord.toStore
  | none => .ok .empty

/-- The files after the stored experiences were changed and saved. -/
def changed (a : Assets) (f : Experiences → Except Fault Experiences) : Except Refusal Assets := do
  let store ← (storeOf a.experiences).mapError fun e => .failure (.error e)
  let store ← (f store).mapError fun e => .failure (.fault e)
  let rs ← (ExperienceRecord.ofStore store).mapError fun e => .failure (.fault e)
  let place ← (a.experiences.writeTable (Schema.experience.save rs)).mapError fun e =>
    .failure (.error e)
  .ok { a with experiences := place }

/-! ### Steps of a run -/

theorem run_unlessError {α : Type} (r : Except TrustError α) (s : Session) :
    (unlessError r).run.run s = (r.mapError fun e => .failure (.error e), s) := by
  cases r <;> rfl

theorem run_unlessFault {α : Type} (r : Except Fault α) (s : Session) :
    (unlessFault r).run.run s = (r.mapError fun e => .failure (.fault e), s) := by
  cases r <;> rfl

theorem run_loadRecords {α β : Type} (o : Occasion) (schema : Schema α) (name : String) (p : Place)
    (f : List α → β) (a : Assets) (ns : List Notice) :
    ∃ ns', (loadRecords o schema name p >>= fun rs => pure (f rs) : Running β).run.run
        { assets := a, notices := ns } =
      ((match p.contents? with
        | some b => (schema.load b).map f
        | none => .ok (f [])).mapError fun e => .failure (.error e),
        { assets := a, notices := ns' }) := by
  rw [run_bind]
  unfold loadRecords
  cases p.contents? with
  | none => exact ⟨_, rfl⟩
  | some b =>
    refine ⟨ns, ?_⟩
    dsimp only
    rw [run_unlessError]
    cases schema.load b <;> rfl

theorem run_loadExperiences (o : Occasion) (a : Assets) (ns : List Notice) :
    ∃ ns', (loadExperiences o).run.run { assets := a, notices := ns } =
      ((storeOf a.experiences).mapError fun e => .failure (.error e),
        { assets := a, notices := ns' }) := by
  unfold loadExperiences
  rw [run_get_bind]
  exact run_loadRecords o .experience experiencesFile a.experiences ExperienceRecord.toStore a ns

theorem run_saveExperiences (store : Experiences) (a : Assets) (ns : List Notice) :
    (saveExperiences store).run.run { assets := a, notices := ns } =
      match ExperienceRecord.ofStore store with
      | .error e => (.error (.failure (.fault e)), { assets := a, notices := ns })
      | .ok rs => match a.experiences.writeTable (Schema.experience.save rs) with
        | .error e => (.error (.failure (.error e)), { assets := a, notices := ns })
        | .ok place => (.ok (), { assets := { a with experiences := place }, notices := ns }) := by
  unfold saveExperiences
  rw [run_bind, run_unlessFault]
  cases ExperienceRecord.ofStore store with
  | error e => rfl
  | ok rs =>
    dsimp only [mapError_ok]
    rw [run_get_bind, run_bind, run_unlessError]
    cases a.experiences.writeTable (Schema.experience.save rs) <;> rfl

/-- **A run that changes the stored experiences**, and goes on without touching a file. -/
theorem leaves_change (o : Occasion) (f : Experiences → Except Fault Experiences) {k : Running Unit}
    (hk : ∀ s, ∃ ns, k.run.run s = (.ok (), { s with notices := ns })) (a : Assets) :
    leaves (do
      let store ← loadExperiences o
      let store ← unlessFault (f store)
      saveExperiences store
      k) a = changed a f := by
  unfold leaves changed
  obtain ⟨ns, hload⟩ := run_loadExperiences o a []
  rw [run_bind, hload]
  cases storeOf a.experiences with
  | error e => rfl
  | ok store =>
    change _ = (f store).mapError _ >>= _
    dsimp only [mapError_ok]
    rw [run_bind, run_unlessFault]
    cases f store with
    | error e => rfl
    | ok store =>
      change _ = (ExperienceRecord.ofStore store).mapError _ >>= _
      dsimp only [mapError_ok]
      rw [run_bind, run_saveExperiences]
      cases ExperienceRecord.ofStore store with
      | error e => rfl
      | ok rs =>
        dsimp only
        change _ = (a.experiences.writeTable (Schema.experience.save rs)).mapError _ >>= _
        cases a.experiences.writeTable (Schema.experience.save rs) with
        | error e => rfl
        | ok place =>
          dsimp only
          obtain ⟨ns', hk⟩ := hk { assets := { a with experiences := place }, notices := ns }
          rw [hk]
          rfl

theorem leaves_recordAll (o : Occasion) (is : List Interaction) (a : Assets) :
    leaves (recordAll o is) a = changed a fun store => store.enact is := by
  have hpure : recordAll o is = (do
      let store ← loadExperiences o
      let store ← unlessFault (store.enact is)
      saveExperiences store
      pure ()) := by
    unfold recordAll
    simp only [bind_pure_unit]
  rw [hpure]
  exact leaves_change o _ (fun s => ⟨s.notices, rfl⟩) a

theorem leaves_record {o : Occasion} {c : Config} {r : RecordOptions} {i : Interaction}
    (h : interactionAt c (o, r) = .ok i) (a : Assets) :
    leaves (record o c r) a = changed a fun store => store.enter i := by
  unfold interactionAt at h
  cases hi : interaction c r with
  | error e => rw [hi] at h; cases h
  | ok x =>
    rw [hi] at h
    cases h
    have hrun : leaves (record o c r) a = leaves (do
        let store ← loadExperiences o
        let store ← unlessFault (store.record x.1 x.2.1 x.2.2 o.now)
        saveExperiences store
        tell [.recorded x.2.2.name x.1 x.2.1 (path o experiencesFile)]) a := by
      unfold leaves record
      rw [run_bind, run_unlessError, hi]
      rfl
    rw [hrun]
    exact leaves_change o _ (fun s => ⟨_, rfl⟩) a

/-! ### What is left in the files -/

theorem storeOf_save (rs : List ExperienceRecord) :
    storeOf (.file (Schema.experience.save rs)) = .ok (ExperienceRecord.toStore rs) := by
  unfold storeOf
  change (Schema.experience.load (Schema.experience.save rs)).map _ = _
  rw [Schema.load_save Schema.lawful_experience]
  rfl

theorem named_of_storeOf_eq_ok {p : Place} {store : Experiences} (h : storeOf p = .ok store) :
    store.Named := by
  unfold storeOf at h
  split at h
  · next b _ =>
    cases hl : Schema.experience.load b with
    | error e => rw [hl] at h; cases h
    | ok rs =>
      rw [hl] at h
      cases h
      exact Experiences.named_toStore rs
  · cases h
    exact Experiences.named_new _

/-- **The files after some interactions**: the rows of the changed store, if all its calls can be
counted. -/
theorem changed_eq_ok_iff {is : List Interaction} {a a' : Assets} :
    changed a (fun store => store.enact is) = .ok a' ↔
      a.experiences ≠ .nowhere ∧ ∃ store store', storeOf a.experiences = .ok store ∧
        store.enact is = .ok store' ∧ (∀ p q, (store'.peek p q).Fits) ∧
        a' = { a with experiences := .file (Schema.experience.save store'.rows) } := by
  unfold changed
  constructor
  · intro h
    obtain ⟨store, hs, h⟩ := bind_eq_ok h
    obtain ⟨store', hs', h⟩ := bind_eq_ok h
    obtain ⟨rs, hrs, h⟩ := bind_eq_ok h
    obtain ⟨place, hp, h⟩ := bind_eq_ok h
    cases h
    have hs := mapError_eq_ok.mp hs
    have hs' := mapError_eq_ok.mp hs'
    have hn : store'.Named := (named_of_storeOf_eq_ok hs).enact hs'
    obtain ⟨hfits, rfl⟩ := (Experiences.ofStore_eq_ok_iff hn).mp (mapError_eq_ok.mp hrs)
    obtain ⟨hne, rfl⟩ := Place.write_eq_ok_iff.mp (mapError_eq_ok.mp hp)
    exact ⟨hne, store, store', hs, hs', hfits, rfl⟩
  · rintro ⟨hne, store, store', hs, hs', hfits, rfl⟩
    have hn : store'.Named := (named_of_storeOf_eq_ok hs).enact hs'
    have hrs := (Experiences.ofStore_eq_ok_iff hn).mpr ⟨hfits, rfl⟩
    have hp : a.experiences.writeTable (Schema.experience.save store'.rows) = .ok _ :=
      Place.write_eq_ok_iff.mpr ⟨hne, rfl⟩
    rw [hs]
    change (store.enact is).mapError _ >>= _ = _
    rw [hs']
    change (ExperienceRecord.ofStore store').mapError _ >>= _ = _
    rw [hrs]
    change (a.experiences.writeTable _).mapError _ >>= _ = _
    rw [hp]
    rfl

/-! ### Many runs -/

/-- **Saving and loading between two interactions** changes nothing. -/
theorem changed_cons {i : Interaction} {is : List Interaction} {a a' : Assets} :
    (∃ b, changed a (fun store => store.enact [i]) = .ok b ∧
      changed b (fun store => store.enact is) = .ok a') ↔
        changed a (fun store => store.enact (i :: is)) = .ok a' := by
  constructor
  · rintro ⟨b, hb, ha'⟩
    obtain ⟨hne, store, store₁, hload, hone, -, rfl⟩ := changed_eq_ok_iff.mp hb
    obtain ⟨-, loaded, final, hloaded, hrest, hfits, rfl⟩ := changed_eq_ok_iff.mp ha'
    rw [storeOf_save] at hloaded
    cases hloaded
    -- what was in memory goes on like what was loaded
    obtain ⟨final', hmem, hkept⟩ := Experiences.exists_enact_congr store₁.kept_toStore_rows hrest
    have hall : store.enact (i :: is) = .ok final' := by
      rw [Experiences.enact_cons, hone]
      exact hmem
    refine changed_eq_ok_iff.mpr ⟨hne, store, final', hload, hall, fun p q => ?_, ?_⟩
    · exact (Experiences.fits_congr hkept p q).mpr (hfits p q)
    · rw [Experiences.rows_congr hkept]
  · intro h
    obtain ⟨hne, store, final, hload, hall, hfits, rfl⟩ := changed_eq_ok_iff.mp h
    rw [Experiences.enact_cons] at hall
    obtain ⟨store₁, hone, hrest⟩ := bind_eq_ok hall
    -- calls only become more, so they could be counted before
    have hfits₁ : ∀ p q, (store₁.peek p q).Fits := by
      intro p q
      have htotal := Experiences.total_enact hrest p q
      have hpq := hfits p q
      rw [Experience.fits_iff_total] at hpq ⊢
      omega
    obtain ⟨final', hmem, hkept⟩ :=
      Experiences.exists_enact_congr store₁.kept_toStore_rows.symm hrest
    refine ⟨_, changed_eq_ok_iff.mpr ⟨hne, store, store₁, hload, hone, hfits₁, rfl⟩,
      changed_eq_ok_iff.mpr ⟨by simp, _, final', storeOf_save _, hmem, fun p q => ?_, ?_⟩⟩
    · exact (Experiences.fits_congr hkept p q).mpr (hfits p q)
    · rw [Experiences.rows_congr hkept]

theorem recordEach_eq_ok_iff {c : Config} {cmds : List (Occasion × RecordOptions)}
    {is : List Interaction} (hne : cmds ≠ []) (h : cmds.mapM (interactionAt c) = .ok is)
    {a a' : Assets} :
    recordEach c cmds a = .ok a' ↔ changed a (fun store => store.enact is) = .ok a' := by
  unfold recordEach
  induction cmds generalizing is a with
  | nil => exact absurd rfl hne
  | cons cmd cmds ih =>
    rw [List.mapM_cons] at h
    obtain ⟨i, hi, h⟩ := bind_eq_ok h
    obtain ⟨is', his, h⟩ := bind_eq_ok h
    cases h
    have hfirst : leaves (record cmd.1 c cmd.2) a = changed a fun store => store.enact [i] := by
      simp only [leaves_record hi, Experiences.enact_singleton]
    rw [List.foldlM_cons, hfirst]
    by_cases hnil : cmds = []
    · subst hnil
      cases his
      change ((changed a fun store => store.enact [i]) >>= pure) = .ok a' ↔
        (changed a fun store => store.enact [i]) = .ok a'
      rw [bind_pure]
    · rw [← changed_cons]
      constructor
      · intro hrun
        obtain ⟨b, hb, hrun⟩ := bind_eq_ok hrun
        exact ⟨b, hb, (ih hnil his).mp hrun⟩
      · rintro ⟨b, hb, hrun⟩
        rw [hb]
        exact (ih hnil his).mpr hrun

/-- **Recording in files loses nothing.** After any run of commands, however they are timed, the files
are those after the same interactions in one store. The commands succeed if there is a directory for
the file, what it holds can be read and no pair has too many calls. What is no call changes nothing.
The calls of a pair are counted on top of those in the file, and the last one gives the time; the
experiences of other pairs stay, if they have a call at all. -/
theorem recordEach_iff {c : Config} {cmds : List (Occasion × RecordOptions)} {is : List Interaction}
    (hne : cmds ≠ []) (h : cmds.mapM (interactionAt c) = .ok is) (a : Assets) :
    (∀ o a', recordEach c cmds a = .ok a' ↔ leaves (recordAll o is) a = .ok a') ∧
    (∀ store, storeOf a.experiences = .ok store → a.experiences ≠ .nowhere →
      (∀ p q, (store.peek p q).total + Interaction.calls is p q < UInt64.size) →
      ∃ a', recordEach c cmds a = .ok a') ∧
    (∀ o, leaves (recordAll o (is.filter fun i => i.IsCall)) a = leaves (recordAll o is) a) ∧
    ∀ store a', storeOf a.experiences = .ok store → recordEach c cmds a = .ok a' →
      ∃ store', storeOf a'.experiences = .ok store' ∧ ∀ p q,
        (Interaction.calls is p q = 0 →
          store'.peek p q = if (store.peek p q).used then store.peek p q else .none) ∧
        (0 < Interaction.calls is p q →
          (store.peek p q).Tallies (is.filter fun i => i.Counts p q) (store'.peek p q)) := by
  have heach : ∀ a', recordEach c cmds a = .ok a' ↔
      changed a (fun store => store.enact is) = .ok a' := fun a' => recordEach_eq_ok_iff hne h
  refine ⟨fun o a' => ?_, fun store hload hplace hroom => ?_, fun o => ?_,
    fun store a' hload hrun => ?_⟩
  · rw [heach, leaves_recordAll]
  · obtain ⟨final, hfinal⟩ := Experiences.exists_enact hroom
    have hfits : ∀ p q, (final.peek p q).Fits := by
      intro p q
      rw [Experience.fits_iff_total, Experiences.total_enact hfinal p q]
      exact hroom p q
    exact ⟨_, (heach _).mpr
      (changed_eq_ok_iff.mpr ⟨hplace, store, final, hload, hfinal, hfits, rfl⟩)⟩
  · rw [leaves_recordAll, leaves_recordAll]
    have hfilter : (fun store : Experiences => store.enact (is.filter fun i => i.IsCall)) =
        fun store => store.enact is := funext fun store => store.enact_filter is
    rw [hfilter]
  · obtain ⟨-, store', final, hload', hfinal, -, rfl⟩ :=
      changed_eq_ok_iff.mp ((heach a').mp hrun)
    rw [hload] at hload'
    cases hload'
    refine ⟨_, storeOf_save _, fun p q => ⟨fun h0 => ?_, fun hpos => ?_⟩⟩
    · rw [Experiences.peek_toStore_rows, Experiences.peek_enact_of_calls_eq_zero hfinal h0]
    · have hused : (final.peek p q).used = true := by
        have htotal := Experiences.total_enact hfinal p q
        unfold Experience.total at htotal
        exact decide_eq_true (by omega)
      rw [Experiences.peek_toStore_rows, if_pos hused]
      exact Experiences.enact_tallies hfinal p q

/-- Two commands, of which the second says nothing, where there is no file yet: one success is left. -/
theorem recordEach_iff_twice :
    let c := Config.ofHome "a"
    let o (t : Instant) : Occasion := ⟨"assets", t, .script, .script, .script⟩
    let cmds := [(o ⟨5⟩, { observer := none, partner := some "b", outcome := some "success" }),
      (o ⟨3⟩, { observer := some "b", partner := some "a", outcome := some "neutral" })]
    let a : Assets := { config := .free, experiences := .free, statuses := .free, scores := .free }
    cmds ≠ [] ∧ ∃ is a', cmds.mapM (interactionAt c) = .ok is ∧ recordEach c cmds a = .ok a' ∧
      leaves (recordAll (o ⟨9⟩) is) a = .ok a' ∧ ∃ store, storeOf a'.experiences = .ok store ∧
        (store.peek (.named "a") (.named "b")).successes.toNat = 1 ∧
        (store.peek (.named "a") (.named "b")).updated = ⟨5⟩ := by
  intro c o cmds a
  have hne : cmds ≠ [] := List.cons_ne_nil _ _
  have h : cmds.mapM (interactionAt c) =
      .ok [⟨.named "a", .named "b", .success, ⟨5⟩⟩, ⟨.named "b", .named "a", .neutral, ⟨3⟩⟩] := by
    decide +kernel
  obtain ⟨hiff, hrun, -, hleft⟩ := recordEach_iff hne h a
  have hroom : ∀ p q : Peer, (Experiences.empty.peek p q).total + Interaction.calls
      [⟨.named "a", .named "b", .success, ⟨5⟩⟩, ⟨.named "b", .named "a", .neutral, ⟨3⟩⟩] p q <
        UInt64.size := by
    intro p q
    have hcalls := List.countP_le_length (p := fun i => decide (Interaction.Counts p q i))
      (l := [⟨.named "a", .named "b", .success, ⟨5⟩⟩, ⟨.named "b", .named "a", .neutral, ⟨3⟩⟩])
    rw [Experiences.peek_empty]
    exact Nat.lt_of_le_of_lt (Nat.add_le_add_left hcalls _) (by decide)
  obtain ⟨a', ha'⟩ := hrun .empty rfl (by decide) hroom
  obtain ⟨store, hstore, hcounts⟩ := hleft .empty a' rfl ha'
  have htally := (hcounts (.named "a") (.named "b")).2 (by decide)
  rw [Experiences.peek_empty] at htally
  exact ⟨hne, _, a', h, ha', (hiff _ a').mp ha', store, hstore, htally.successes, htally.updated⟩

end Session

end Reputation
