import Reputation.Proofs.Command.Recording
import Reputation.Proofs.Config
import Reputation.Proofs.Experience.Overflow
import Reputation.Proofs.Provider.Growth

/-! # Runs that overflow

A file of experiences may hold any counters, and loading it adds none of them up. A run that records
stops if the calls of a pair are no 64-bit count afterwards, whichever pair this is, since it saves
all of them. A run that computes trust stops if those of a pair are none before: it lists all of them
first, so that nothing later can overflow. No other run stops, and none for another reason
(`Session.run_stops_iff`). -/

namespace Reputation

namespace Session

variable {K α β : Type} {f : Fault} {s : Session} {a : Assets}

/-! ### Stopping -/

/-- **A run stops** with a fault. -/
def Stops (x : Running α) (s : Session) (f : Fault) : Prop :=
  (x.run.run s).1 = .error (.failure (.fault f))

/-- A run that never stops. -/
def Safe (x : Running α) : Prop := ∀ s f, ¬ Stops x s f

theorem stops_bind {x : Running α} {g : α → Running β} :
    Stops (x >>= g) s f ↔
      Stops x s f ∨ ∃ y s', x.run.run s = (.ok y, s') ∧ Stops (g y) s' f := by
  unfold Stops
  rw [run_bind]
  rcases x.run.run s with ⟨e | y, s'⟩
  · constructor
    · exact fun h => .inl (by cases h; rfl)
    · rintro (h | ⟨y, s'', hrun, -⟩)
      · cases h; rfl
      · cases hrun
  · constructor
    · exact fun h => .inr ⟨y, s', rfl, h⟩
    · rintro (h | ⟨y', s'', hrun, h⟩)
      · cases h
      · cases hrun; exact h

theorem stops_bind_of_safe {x : Running α} {g : α → Running β} (h : ∀ y, Safe (g y)) :
    Stops (x >>= g) s f ↔ Stops x s f := by
  rw [stops_bind]
  constructor
  · rintro (hx | ⟨y, s', -, hg⟩)
    · exact hx
    · exact absurd hg (h y s' f)
  · exact Or.inl

theorem stops_get_bind {g : Session → Running β} : Stops (get >>= g) s f ↔ Stops (g s) s f := Iff.rfl

theorem safe_pure (x : α) : Safe (pure x : Running α) := by
  intro s f h
  cases h

theorem Safe.bind {x : Running α} {g : α → Running β} (hx : Safe x) (hg : ∀ y, Safe (g y)) :
    Safe (x >>= g) := by
  intro s f h
  rcases stops_bind.mp h with h | ⟨y, s', -, h⟩
  · exact hx s f h
  · exact hg y s' f h

theorem safe_tell (ns : List Notice) : Safe (tell ns) := by
  intro s f h
  cases h

theorem safe_get : Safe (get : Running Session) := by
  intro s f h
  cases h

theorem safe_set (s' : Session) : Safe (set s' : Running Unit) := by
  intro s f h
  cases h

theorem safe_unlessError (r : Except TrustError α) : Safe (unlessError r) := by
  intro s f h
  unfold Stops at h
  rw [run_unlessError] at h
  cases r with
  | error e => cases h
  | ok x => cases h

theorem stops_unlessError_bind {r : Except TrustError α} {g : α → Running β} :
    Stops (unlessError r >>= g) s f ↔ ∃ y, r = .ok y ∧ Stops (g y) s f := by
  rw [stops_bind, run_unlessError]
  constructor
  · rintro (h | ⟨y, s', hrun, h⟩)
    · exact absurd h (safe_unlessError r s f)
    · obtain ⟨hr, rfl⟩ := Prod.mk.inj hrun
      exact ⟨y, mapError_eq_ok.mp hr, h⟩
  · rintro ⟨y, rfl, h⟩
    exact .inr ⟨y, s, rfl, h⟩

theorem stops_unlessFault {r : Except Fault α} : Stops (unlessFault r) s f ↔ r = .error f := by
  unfold Stops
  rw [run_unlessFault]
  cases r with
  | error e => exact ⟨fun h => (by cases h; rfl), fun h => (by cases h; rfl)⟩
  | ok x => exact iff_of_false (fun h => by cases h) fun h => by cases h

theorem stops_unlessFault_bind {r : Except Fault α} {g : α → Running β} :
    Stops (unlessFault r >>= g) s f ↔ r = .error f ∨ ∃ y, r = .ok y ∧ Stops (g y) s f := by
  rw [stops_bind, run_unlessFault, stops_unlessFault]
  refine or_congr_right ?_
  constructor
  · rintro ⟨y, s', hrun, h⟩
    obtain ⟨hr, rfl⟩ := Prod.mk.inj hrun
    exact ⟨y, mapError_eq_ok.mp hr, h⟩
  · rintro ⟨y, rfl, h⟩
    exact ⟨y, s, rfl, h⟩

theorem safe_loadRecords (o : Occasion) (schema : Schema α) (name : String) (p : Place) :
    Safe (loadRecords o schema name p) := by
  unfold loadRecords
  cases p.contents? with
  | some b => exact safe_unlessError _
  | none => exact (safe_tell _).bind fun _ => safe_pure _

theorem safe_loadRoster (o : Occasion) : Safe (loadRoster o) :=
  safe_get.bind fun _ => (safe_loadRecords o _ _ _).bind fun _ => safe_pure _

theorem safe_saveRoster (roster : Roster) : Safe (saveRoster roster) :=
  safe_get.bind fun _ => (safe_unlessError _).bind fun _ => safe_set _

theorem safe_saveScores [Number K] (rs : List (ScoreRecord K)) : Safe (saveScores rs) :=
  safe_get.bind fun _ => (safe_unlessError _).bind fun _ => safe_set _

theorem safe_saveConfig (c : Config) : Safe (saveConfig c) :=
  safe_get.bind fun _ => (safe_unlessError _).bind fun _ => safe_set _

/-! ### Loading -/

/-- The roster of a file; an empty one if there is no file. -/
def rosterOf (p : Place) : Except TrustError Roster :=
  match p.contents? with
  | some b => (Schema.status.load b).map StatusRecord.toRoster
  | none => .ok .empty

theorem run_loadRoster (o : Occasion) (a : Assets) (ns : List Notice) :
    ∃ ns', (loadRoster o).run.run { assets := a, notices := ns } =
      ((rosterOf a.statuses).mapError fun e => .failure (.error e),
        { assets := a, notices := ns' }) := by
  unfold loadRoster
  rw [run_get_bind]
  exact run_loadRecords o .status statusesFile a.statuses StatusRecord.toRoster a ns

/-- A run that goes on with what a file holds. -/
theorem stops_load_bind {x : Running α} {r : Except TrustError α} {a : Assets} {ns ns' : List Notice}
    (h : x.run.run { assets := a, notices := ns } =
      (r.mapError fun e => .failure (.error e), { assets := a, notices := ns' }))
    {g : α → Running β} : Stops (x >>= g) { assets := a, notices := ns } f ↔
      ∃ y, r = .ok y ∧ Stops (g y) { assets := a, notices := ns' } f := by
  unfold Stops
  rw [run_bind, h]
  cases r with
  | error e => exact iff_of_false (fun h => by cases h) fun ⟨_, h, _⟩ => by cases h
  | ok y => exact ⟨fun h => ⟨y, rfl, h⟩, fun ⟨_, hy, h⟩ => by cases hy; exact h⟩

/-! ### Recording -/

theorem stops_saveExperiences {store : Experiences} :
    Stops (saveExperiences store) s f ↔ ExperienceRecord.ofStore store = .error f := by
  unfold saveExperiences
  rw [stops_unlessFault_bind]
  constructor
  · rintro (h | ⟨rs, -, h⟩)
    · exact h
    · exact absurd h (safe_get.bind (fun _ => (safe_unlessError _).bind fun _ => safe_set _) s f)
  · exact Or.inl

theorem stops_record {o : Occasion} {c : Config} {r : RecordOptions} {ns : List Notice} :
    Stops (record o c r) { assets := a, notices := ns } f ↔ f = .counterOverflow ∧
      ∃ i store, interactionAt c (o, r) = .ok i ∧ storeOf a.experiences = .ok store ∧
        ∃ p q, UInt64.size ≤ (store.peek p q).total + Interaction.calls [i] p q := by
  obtain ⟨ns', hload⟩ := run_loadExperiences o a ns
  unfold record interactionAt
  rw [stops_unlessError_bind]
  cases hint : interaction c r with
  | error e => exact iff_of_false (fun ⟨_, h, _⟩ => by cases h) fun ⟨_, _, _, h, _⟩ => by cases h
  | ok x =>
    obtain ⟨observer, partner, outcome⟩ := x
    have hrun : ∀ store : Experiences, Stops (do
        let store ← unlessFault (store.record observer partner outcome o.now)
        saveExperiences store
        tell [.recorded outcome.name observer partner (path o experiencesFile)])
          { assets := a, notices := ns' } f ↔ f = .counterOverflow ∧
        ∃ p q, UInt64.size ≤ (store.peek p q).total +
          Interaction.calls [⟨observer, partner, outcome, o.now⟩] p q := by
      intro store
      rw [← Experiences.enact_overflows_iff, Experiences.enact_singleton, stops_unlessFault_bind]
      refine or_congr_right (exists_congr fun store' => and_congr_right fun _ => ?_)
      rw [stops_bind_of_safe fun _ => safe_tell _, stops_saveExperiences]
    constructor
    · rintro ⟨x, hx, h⟩
      cases hx
      obtain ⟨store, hstore, h⟩ := (stops_load_bind hload).mp h
      obtain ⟨rfl, hover⟩ := (hrun store).mp h
      exact ⟨rfl, _, store, rfl, hstore, hover⟩
    · rintro ⟨hf, i, store, hi, hstore, hover⟩
      cases hi
      exact ⟨_, rfl, (stops_load_bind hload).mpr ⟨store, hstore, (hrun store).mpr ⟨hf, hover⟩⟩⟩

/-! ### Computing -/

/-- Whatever is computed over a store whose calls were listed, no count overflows any more. -/
theorem safe_compute [Number K] {o : Occasion} {c : Config} {store : Experiences} {roster : Roster}
    {es : List (Peer × Peer × Experience)} (h : store.interactions = .ok es) :
    Safe (do
      let context ← unlessError (c.context (knownPeers c roster es) storeId)
      let provider ← unlessError (Pipeline.provider? c)
      tell [Pipeline.created c]
      let env : Environment K :=
        { experiences := fun _ => store, roster, clock := .fixed o.now, draws := .ofList [],
          notices := [] }
      let (result, _, env) := provider context (Pipeline.start o.truncation) env
      tell env.notices
      match result with
      | .ok a => pure a
      | .error failure => throw (.failure failure)) := by
  have hf : ∀ p q, (store.peek p q).Fits := Experiences.fits_of_interactions h
  refine (safe_unlessError _).bind fun x s f => ?_
  rw [stops_unlessError_bind]
  rintro ⟨P, hP, hstop⟩
  obtain rfl : P = Pipeline.chain c := by
    unfold Pipeline.provider? at hP
    cases hv : c.validate K with
    | error e => rw [hv] at hP; cases hP
    | ok u => rw [hv] at hP; cases hP; rfl
  have hfits : (⟨fun _ => store, roster, .fixed o.now, .ofList [], []⟩ : Environment K).Fits
      x.store := hf
  obtain ⟨a, b, s', env', -, hchain, -⟩ :=
    Pipeline.chain_spec c x (Pipeline.start o.truncation) hfits
  dsimp only at hstop
  rw [hchain] at hstop
  exact (safe_tell _).bind (fun _ => (safe_tell _).bind fun _ => safe_pure b) s f hstop

theorem stops_assess [Number K] {o : Occasion} {c : Config} {ns : List Notice} :
    Stops (assess o c : Running (Assessment K)) { assets := a, notices := ns } f ↔
      f = .counterOverflow ∧ ∃ store roster, storeOf a.experiences = .ok store ∧
        rosterOf a.statuses = .ok roster ∧ ∃ p q, UInt64.size ≤ (store.peek p q).total := by
  obtain ⟨ns₁, hstore⟩ := run_loadExperiences o a ns
  obtain ⟨ns₂, hroster⟩ := run_loadRoster o a ns₁
  unfold assess
  rw [stops_load_bind hstore]
  constructor
  · rintro ⟨store, hs, h⟩
    obtain ⟨roster, hr, h⟩ := (stops_load_bind hroster).mp h
    rcases stops_unlessFault_bind.mp h with hlist | ⟨es, hes, h⟩
    · obtain ⟨hf, hover⟩ := Experiences.interactions_eq_error_iff.mp hlist
      exact ⟨hf, store, roster, hs, hr, hover⟩
    · exact absurd h (safe_compute hes _ f)
  · rintro ⟨hf, store, roster, hs, hr, hover⟩
    have hlist := Experiences.interactions_eq_error_iff.mpr ⟨hf, hover⟩
    exact ⟨store, hs, (stops_load_bind hroster).mpr
      ⟨roster, hr, stops_unlessFault_bind.mpr (.inl hlist)⟩⟩

theorem stops_scores [Number K] {o : Occasion} {c : Config} :
    Stops (scores K o c) s f ↔ Stops (assess o c : Running (Assessment K)) s f :=
  stops_bind_of_safe fun _ => (safe_tell _).bind fun _ => (safe_saveScores _).bind fun _ =>
    safe_tell _

theorem stops_select [Number K] {o : Occasion} {c : Config} :
    Stops (select K o c) s f ↔ Stops (assess o c : Running (Assessment K)) s f := by
  refine stops_bind_of_safe fun x => (safe_loadRoster o).bind fun roster => ?_
  dsimp only
  split
  · exact (safe_tell _).bind fun _ => safe_tell _
  · exact safe_tell _

/-! ### Commands -/

/-- **A count overflows in a command** on some files. -/
def Overflows (o : Occasion) (c : Config) (a : Assets) : Command → Prop
  | .record r => ∃ i store, interactionAt c (o, r) = .ok i ∧ storeOf a.experiences = .ok store ∧
    ∃ p q, UInt64.size ≤ (store.peek p q).total + Interaction.calls [i] p q
  | .scores | .select => ∃ store roster, storeOf a.experiences = .ok store ∧
    rosterOf a.statuses = .ok roster ∧ ∃ p q, UInt64.size ≤ (store.peek p q).total
  | .describe | .status _ | .update _ => False

theorem safe_setStatus (o : Occasion) (r : StatusOptions) : Safe (setStatus o r) :=
  (safe_unlessError _).bind fun _ => (safe_loadRoster o).bind fun _ =>
    (safe_saveRoster _).bind fun _ => safe_tell _

theorem safe_update (K : Type) [Number K] (c : Config) (u : UpdateOptions) :
    Safe (update K c u) := by
  unfold update
  split
  · exact safe_saveConfig _
  · intro s f h
    cases h

theorem stops_perform (K : Type) [Number K] {o : Occasion} {c : Config} {ns : List Notice}
    (command : Command) : Stops (perform K o c command) { assets := a, notices := ns } f ↔
      f = .counterOverflow ∧ Overflows o c a command := by
  cases command with
  | record r => exact stops_record
  | scores => exact stops_scores.trans stops_assess
  | select => exact stops_select.trans stops_assess
  | describe => exact iff_of_false (safe_tell _ _ f) fun h => h.2
  | status r => exact iff_of_false (safe_setStatus o r _ f) fun h => h.2
  | update u => exact iff_of_false (safe_update K c u _ f) fun h => h.2

/-- **Which runs stop**: those of a command in which a count overflows. -/
theorem run_stops_iff (K : Type) [Number K] (o : Occasion) (args : List String) (a : Assets)
    (f : Fault) : (run K o args a).1 = .error (.failure (.fault f)) ↔
      f = .counterOverflow ∧ ∃ contents c command, a.config.read = .ok contents ∧
        Codec.config.load contents = .ok c ∧ Command.parse? args = some command ∧
        Overflows o c a command := by
  change Stops (execute K o args) { assets := a, notices := [] } f ↔ _
  unfold execute
  rw [stops_get_bind, stops_unlessError_bind]
  simp only [stops_unlessError_bind]
  constructor
  · rintro ⟨contents, hread, c, hload, h⟩
    cases hparse : Command.parse? args with
    | none => rw [hparse] at h; cases h
    | some command =>
      rw [hparse] at h
      obtain ⟨hf, hover⟩ := (stops_perform K command).mp h
      exact ⟨hf, contents, c, command, hread, hload, rfl, hover⟩
  · rintro ⟨hf, contents, c, command, hread, hload, hparse, hover⟩
    refine ⟨contents, hread, c, hload, ?_⟩
    rw [hparse]
    exact (stops_perform K command).mpr ⟨hf, hover⟩

/-- **Where counts overflow**, in memory and in files. A retention does whose seconds are no 64-bit
count. A run of the store does at an operation that is not clear after those before it, and its answers
do where an account does not fit. A command does if the calls of a pair are no 64-bit count when all
of them are listed or saved. Nothing stops anywhere else. -/
theorem overflows_iff (K : Type) [Number K] :
    (∀ hours f, Experiences.withRetention hours = .error f ↔
      f = .counterOverflow ∧ ¬ hours.toNat * 3600 < UInt64.size) ∧
    (∀ hours new ops, Experiences.withRetention hours = .ok new →
      (∀ f, new.run K ops = .error f ↔ f = .fault .counterOverflow ∧
        ∃ before op rest, ops = before ++ op :: rest ∧
          ¬ op.Clear (Account.after (hours.toNat * 3600) before)) ∧
      ∀ s, new.run K ops = .ok s → s.Overflows K (Account.after (hours.toNat * 3600) ops)) ∧
    ∀ o args a f, (run K o args a).1 = .error (.failure (.fault f)) ↔
      f = .counterOverflow ∧ ∃ contents c command, a.config.read = .ok contents ∧
        Codec.config.load contents = .ok c ∧ Command.parse? args = some command ∧
        Overflows o c a command := by
  refine ⟨fun hours f => ?_, fun hours new ops hnew => Experiences.run_overflows K hnew ops,
    run_stops_iff K⟩
  rw [(Experiences.only_withRetention hours).eq_error_iff, Experiences.exists_withRetention_iff]

/-- One more call where the counter is full. -/
theorem overflows_iff_full : ∃ new, Experiences.withRetention 24 = .ok new ∧
    new.run ℚ [.put (.named "a") (.named "b") ⟨18446744073709551615, 0, .zero⟩,
      .record (.named "a") (.named "b") .success ⟨5⟩] = .error (.fault .counterOverflow) := by
  have hnew : Experiences.withRetention 24 = .ok ⟨24 * 3600, ∅, ∅⟩ := if_pos (by decide)
  refine ⟨_, hnew, (((overflows_iff ℚ).2.1 24 _ _ hnew).1 _).mpr
    ⟨rfl, [.put (.named "a") (.named "b") ⟨18446744073709551615, 0, .zero⟩], _, [], rfl, ?_⟩⟩
  intro hclear
  have hroom := hclear (by decide)
  revert hroom
  decide

/-- **Overflows are within reach**: of a retention that a caller asks for, and of counters that a
caller writes into a store or that are read from a file. -/
theorem overflows_unbounded :
    Experiences.withRetention 18446744073709551615 = .error .counterOverflow ∧
    (∃ new s, Experiences.withRetention 24 = .ok new ∧
      new.run ℚ [.put (.named "a") (.named "b") ⟨18446744073709551615, 1, .zero⟩] = .ok s ∧
      s.interactions = .error .counterOverflow) ∧
    ∃ store, storeOf (.file (Schema.experience.save [⟨"a", "b", 18446744073709551615, 1, 0⟩])) =
      .ok store ∧ store.interactions = .error .counterOverflow := by
  have hover : ∀ s : Experiences,
      s.peek (.named "a") (.named "b") = ⟨18446744073709551615, 1, .zero⟩ →
      s.interactions = .error .counterOverflow := by
    intro s hs
    refine Experiences.interactions_eq_error_iff.mpr ⟨rfl, .named "a", .named "b", ?_⟩
    rw [hs]
    decide
  refine ⟨if_neg (by decide), ⟨_, _, if_pos (by decide), rfl, hover _ ?_⟩,
    _, storeOf_save _, hover _ ?_⟩
  · rw [Experiences.peek_put, if_pos ⟨rfl, rfl⟩]
  · change (Experiences.empty.put _ _ _).peek _ _ = _
    rw [Experiences.peek_put, if_pos ⟨rfl, rfl⟩]
    rfl

end Session

end Reputation
