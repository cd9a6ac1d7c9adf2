import Reputation.Proofs.Command.Overflow
import Reputation.Proofs.Document.Config
import Reputation.Proofs.Experience.Rows
import Reputation.Proofs.Provider.Coverage
import Reputation.Proofs.Roster

/-! # Whose scores are saved

A node knows itself, everyone in the file of statuses, both peers of every recorded experience with a
call, and its pre-trusted peers: `Config.known`. These are the peers of the context in which a run
computes trust (`Session.toFinset_knownPeers`). So the scores that it saves are those of all known
peers, or of as many as allowed: `Session.scores_cover`. -/

namespace Reputation

open Number

/-! ### What the files name -/

/-- The last row of each pair, where it has a call. -/
def ExperienceRecord.withCall (es : List ExperienceRecord) : List ExperienceRecord :=
  (latest pair es).filter fun r => r.experience.used

/-- **The identities that a node knows**: its own, those with a status, those of pairs with a call,
and the pre-trusted ones. -/
def Config.known (c : Config) (es : List ExperienceRecord) (ss : List StatusRecord) :
    Finset String :=
  insert c.home (ss.map StatusRecord.peer ++
    (ExperienceRecord.withCall es).flatMap (fun r => [r.observer, r.partner]) ++
    c.preTrusted).toFinset

/-- **A store of rows lists the pairs whose last row has a call.** -/
theorem Experiences.exists_interactions_toStore {es : List ExperienceRecord}
    (hf : ∀ r ∈ latest ExperienceRecord.pair es, r.experience.Fits) :
    ∃ xs, (ExperienceRecord.toStore es).interactions = .ok xs ∧
      ∀ id, id ∈ (xs.flatMap fun x => [x.1, x.2.1]).map Peer.id ↔
        id ∈ (ExperienceRecord.withCall es).flatMap fun r => [r.observer, r.partner] := by
  have hrows : ExperienceRecord.ofStore (ExperienceRecord.toStore es) =
      .ok (ExperienceRecord.toStore es).rows :=
    (ofStore_eq_ok_iff (named_toStore es)).mpr ⟨(fits_toStore_iff es).mpr hf, rfl⟩
  unfold ExperienceRecord.ofStore at hrows
  cases hxs : (ExperienceRecord.toStore es).interactions with
  | error f => rw [hxs] at hrows; cases hrows
  | ok xs =>
    rw [hxs, rows_toStore] at hrows
    have hrows : (xs.map fun x => ExperienceRecord.ofExperience x.1 x.2.1 x.2.2) =
        (sortByKey ExperienceRecord.pair (latest ExperienceRecord.pair es)).filter
          fun r => r.experience.used := Except.ok.inj hrows
    refine ⟨xs, rfl, fun id => ?_⟩
    have hids : (xs.flatMap fun x => [x.1, x.2.1]).map Peer.id =
        (xs.map fun x => ExperienceRecord.ofExperience x.1 x.2.1 x.2.2).flatMap
          fun r => [r.observer, r.partner] := by
      rw [List.map_flatMap, List.flatMap_map]
      rfl
    have hperm : ((sortByKey ExperienceRecord.pair (latest ExperienceRecord.pair es)).filter
        fun r => r.experience.used).Perm (ExperienceRecord.withCall es) :=
      (List.mergeSort_perm _ _).filter _
    rw [hids, hrows]
    exact (hperm.flatMap_right _).mem_iff

namespace Session

/-- **The peers of a run are the known ones.** -/
theorem toFinset_knownPeers {c : Config} {es : List ExperienceRecord} {ss : List StatusRecord}
    {xs : List (Peer × Peer × Experience)} {store : StoreId} {x : Context}
    (hxs : ∀ id, id ∈ (xs.flatMap fun x => [x.1, x.2.1]).map Peer.id ↔
      id ∈ (ExperienceRecord.withCall es).flatMap fun r => [r.observer, r.partner])
    (hx : c.context (knownPeers c (StatusRecord.toRoster ss) xs) store = .ok x) :
    (x.peers.map Peer.id).toFinset = c.known es ss := by
  ext id
  rw [List.mem_toFinset, Config.mem_context hx]
  unfold knownPeers Config.known
  rw [Finset.mem_insert, List.mem_toFinset, List.map_append, List.map_append]
  simp only [List.mem_append]
  rw [StatusRecord.mem_peers_toRoster, Config.mem_preTrustedPeers]
  exact or_congr_right (or_congr_left (or_congr_right (hxs id)))

theorem fits_of_toStore {K : Type} {es : List ExperienceRecord} {store : StoreId}
    {env : Environment K} (hf : ∀ r ∈ latest ExperienceRecord.pair es, r.experience.Fits)
    (henv : env.experiences store = ExperienceRecord.toStore es) : env.Fits store := by
  unfold Environment.Fits
  rw [henv]
  exact (Experiences.fits_toStore_iff es).mpr hf

/-- **A chain asked about the known peers covers them**, whatever is drawn. -/
theorem chain_covers_known {K : Type} [Number K] (hK : Ordered K) {c : Config}
    {es : List ExperienceRecord} {ss : List StatusRecord} {xs : List (Peer × Peer × Experience)}
    {store : StoreId} {x : Context} (hv : c.validate K = .ok ())
    (hf : ∀ r ∈ latest ExperienceRecord.pair es, r.experience.Fits)
    (hxs : ∀ id, id ∈ (xs.flatMap fun x => [x.1, x.2.1]).map Peer.id ↔
      id ∈ (ExperienceRecord.withCall es).flatMap fun r => [r.observer, r.partner])
    (hx : c.context (knownPeers c (StatusRecord.toRoster ss) xs) store = .ok x) (source : Source)
    {env : Environment K} (henv : env.experiences store = ExperienceRecord.toStore es) :
    ∃ b own env', Pipeline.chain c x (Pipeline.start source) env = (.ok b, own, env') ∧
      c.Covers (c.known es ss) (b.context.peers.map Peer.id) := by
  have hpre : ∀ id ∈ c.preTrusted,
      id ∈ (knownPeers c (StatusRecord.toRoster ss) xs).map Peer.id := by
    intro id hid
    unfold knownPeers
    rw [List.map_append]
    exact List.mem_append_right _ (Config.mem_preTrustedPeers.mpr hid)
  rw [← toFinset_knownPeers hxs hx]
  exact Pipeline.chain_covers hK hv hx hpre source (fits_of_toStore hf henv)

/-! ### The run -/

/-- The rows of a file; none if there is no file. -/
def rowsOf {α : Type} (schema : Schema α) (p : Place) : Except TrustError (List α) :=
  match p.contents? with
  | some b => schema.load b
  | none => .ok []

theorem storeOf_eq (p : Place) :
    storeOf p = (rowsOf .experience p).map ExperienceRecord.toStore := by
  unfold storeOf rowsOf
  cases p.contents? <;> rfl

theorem rosterOf_eq (p : Place) : rosterOf p = (rowsOf .status p).map StatusRecord.toRoster := by
  unfold rosterOf rowsOf
  cases p.contents? <;> rfl

section Run
variable {K : Type} [Number K] {o : Occasion} {c : Config} {a : Assets} {b : Assessment K}

/-- **A run computes the answer of the chain** and leaves the files alone. -/
theorem run_assess {store : Experiences} {roster : Roster} {xs : List (Peer × Peer × Experience)}
    {x : Context} {own : Pipeline.State K} {env : Environment K}
    (hstore : storeOf a.experiences = .ok store) (hroster : rosterOf a.statuses = .ok roster)
    (hxs : store.interactions = .ok xs) (hx : c.context (knownPeers c roster xs) storeId = .ok x)
    (hv : c.validate K = .ok ())
    (hchain : Pipeline.chain c x (Pipeline.start o.truncation)
      ⟨fun _ => store, roster, .fixed o.now, .ofList [], []⟩ = (.ok b, own, env))
    (ns : List Notice) :
    ∃ ns', (assess o c : Running (Assessment K)).run.run { assets := a, notices := ns } =
      (.ok b, { assets := a, notices := ns' }) := by
  obtain ⟨ns₁, hload⟩ := run_loadExperiences o a ns
  obtain ⟨ns₂, hload'⟩ := run_loadRoster o a ns₁
  refine ⟨ns₂ ++ [Pipeline.created c] ++ env.notices, ?_⟩
  unfold assess
  rw [run_bind, hload, hstore]
  dsimp only [mapError_ok]
  rw [run_bind, hload', hroster]
  dsimp only [mapError_ok]
  rw [run_bind, run_unlessFault, hxs]
  dsimp only [mapError_ok]
  rw [run_bind, run_unlessError, hx]
  dsimp only [mapError_ok]
  rw [run_bind, run_unlessError, Pipeline.provider?_eq_ok hv]
  dsimp only [mapError_ok]
  rw [hchain]
  rfl

theorem run_saveScores (hplace : a.scores ≠ .nowhere) (rs : List (ScoreRecord K))
    (ns : List Notice) : (saveScores rs).run.run { assets := a, notices := ns } =
      (.ok (), { assets := { a with scores := .file (Schema.score.save rs) }, notices := ns }) := by
  have hwrite : a.scores.writeTable (Schema.score.save rs) = .ok (.file (Schema.score.save rs)) :=
    Place.write_eq_ok_iff.mpr ⟨hplace, rfl⟩
  unfold saveScores
  rw [run_get_bind, run_bind, run_unlessError]
  dsimp only
  rw [hwrite]
  rfl

/-- **A run saves the scores of an assessment**, and changes no other file. -/
theorem run_scores {ns ns' : List Notice} (hplace : a.scores ≠ .nowhere)
    (h : (assess o c : Running (Assessment K)).run.run { assets := a, notices := ns } =
      (.ok b, { assets := a, notices := ns' })) :
    ∃ ns'', (scores K o c).run.run { assets := a, notices := ns } = (.ok (),
      { assets := { a with scores := .file (Schema.score.save (ScoreRecord.ofAssessment b)) },
        notices := ns'' }) := by
  have htell : ∀ (ns ns' : List Notice) (a : Assets),
      (tell ns').run.run { assets := a, notices := ns } =
        (.ok (), { assets := a, notices := ns ++ ns' }) := fun _ _ _ => rfl
  unfold scores
  rw [run_bind, h]
  dsimp only
  rw [run_bind, htell]
  dsimp only
  rw [run_bind, run_saveScores hplace]
  dsimp only
  rw [htell]
  exact ⟨_, rfl⟩

theorem run_eq_perform (K : Type) [Number K] {contents : Bytes} {args : List String}
    {command : Command} (hread : a.config.read = .ok contents)
    (hload : Codec.config.load contents = .ok c) (hargs : Command.parse? args = some command) :
    run K o args a = (perform K o c command).run.run { assets := a, notices := [] } := by
  unfold run execute
  rw [run_get_bind, run_bind, run_unlessError, hread]
  dsimp only [mapError_ok]
  rw [run_bind, run_unlessError, hload]
  dsimp only [mapError_ok]
  rw [hargs]

end Run

section Cover
variable {a : Assets} {contents : Bytes} {c : Config} {es : List ExperienceRecord}
  {ss : List StatusRecord}

/-- **A run of scores saves what its chain answers** about the known peers. -/
theorem exists_run_scores {K : Type} [Number K] (hK : Ordered K)
    (hread : a.config.read = .ok contents) (hload : Codec.config.load contents = .ok c)
    (hv : c.validate K = .ok ()) (hes : rowsOf .experience a.experiences = .ok es)
    (hss : rowsOf .status a.statuses = .ok ss)
    (hf : ∀ r ∈ latest ExperienceRecord.pair es, r.experience.Fits)
    (hplace : a.scores ≠ .nowhere) {args : List String}
    (hargs : Command.parse? args = some .scores) (o : Occasion) :
    ∃ ps x, c.context ps storeId = .ok x ∧ ∃ env b own env', env.Fits storeId ∧
      Pipeline.chain c x (Pipeline.start o.truncation) env =
        ((.ok b, own, env') : Except Failure (Assessment K) × _ × _) ∧
      ∃ s, run K o args a = (.ok (), s) ∧
        s.assets = { a with scores := .file (Schema.score.save (ScoreRecord.ofAssessment b)) } ∧
        c.Covers (c.known es ss) ((ScoreRecord.ofAssessment b).map ScoreRecord.peer) := by
  obtain ⟨xs, hxs, hids⟩ := Experiences.exists_interactions_toStore hf
  obtain ⟨x, hx, -⟩ := c.exists_context (knownPeers c (StatusRecord.toRoster ss) xs) storeId
  have hstore := (storeOf_eq a.experiences).trans (congrArg _ hes)
  have hroster := (rosterOf_eq a.statuses).trans (congrArg _ hss)
  let env : Environment K :=
    ⟨fun _ => ExperienceRecord.toStore es, StatusRecord.toRoster ss, .fixed o.now, .ofList [], []⟩
  have henv : env.experiences storeId = ExperienceRecord.toStore es := rfl
  obtain ⟨b, own, env', hchain, hcovers⟩ := chain_covers_known hK hv hf hids hx o.truncation henv
  obtain ⟨ns', hassess⟩ := run_assess hstore hroster hxs hx hv hchain []
  obtain ⟨ns'', hscores⟩ := run_scores hplace hassess
  have hpeers : (ScoreRecord.ofAssessment b).map ScoreRecord.peer =
      b.context.peers.map Peer.id := by
    rw [← b.map_fst_toList]
    unfold ScoreRecord.ofAssessment
    rw [List.map_map, List.map_map]
    rfl
  refine ⟨_, x, hx, env, b, own, env', fits_of_toStore hf henv, hchain, _,
    (run_eq_perform K hread hload hargs).trans hscores, rfl, ?_⟩
  rw [hpeers]
  exact hcovers

/-- **A run saves the scores of the known peers.** On the files of a valid configuration, of which
those of experiences and statuses may be missing, it succeeds if no count of calls overflows and there
is a directory for the scores. It saves distinct known peers, with the local one at the end and
without trust: all of them if they are not too many, and otherwise as many as allowed, among them the
pre-trusted ones if these have room. This holds for every source of draws, and for every script of
draws of what the chain answers about the known peers. Only the score of the local peer needs exact
arithmetic: a run in binary64 saves the scores of just such peers. -/
theorem scores_cover (hread : a.config.read = .ok contents)
    (hload : Codec.config.load contents = .ok c)
    (hes : rowsOf .experience a.experiences = .ok es) (hss : rowsOf .status a.statuses = .ok ss)
    (hf : ∀ r ∈ latest ExperienceRecord.pair es, r.experience.Fits)
    (hplace : a.scores ≠ .nowhere) {args : List String}
    (hargs : Command.parse? args = some .scores) :
    (c.validate ℚ = .ok () → ∀ o : Occasion, ∃ (rs : List (ScoreRecord ℚ)) (s : Session),
      run ℚ o args a = (.ok (), s) ∧
      s.assets = { a with scores := .file (Schema.score.save rs) } ∧
      c.Covers (c.known es ss) (rs.map ScoreRecord.peer) ∧ rs.getLast? = some ⟨c.home, 0⟩) ∧
    (c.validate Float = .ok () → ∀ o : Occasion, ∃ (rs : List (ScoreRecord Float)) (s : Session),
      run Float o args a = (.ok (), s) ∧
      s.assets = { a with scores := .file (Schema.score.save rs) } ∧
      c.Covers (c.known es ss) (rs.map ScoreRecord.peer)) ∧
    ∃ xs, (ExperienceRecord.toStore es).interactions = .ok xs ∧
      ∀ store, ∃ x, c.context (knownPeers c (StatusRecord.toRoster ss) xs) store = .ok x ∧
        (c.validate ℚ = .ok () → ∀ (source : Source) (env : Environment ℚ),
          env.experiences store = ExperienceRecord.toStore es →
          ∃ b own env', Pipeline.chain c x (Pipeline.start source) env = (.ok b, own, env') ∧
            c.Covers (c.known es ss) (b.context.peers.map Peer.id) ∧
            b.toList.getLast? = some (c.homePeer, 0)) ∧
        (c.validate Float = .ok () → ∀ (source : Source) (env : Environment Float),
          env.experiences store = ExperienceRecord.toStore es →
          ∃ b own env', Pipeline.chain c x (Pipeline.start source) env = (.ok b, own, env') ∧
            c.Covers (c.known es ss) (b.context.peers.map Peer.id)) := by
  obtain ⟨xs, hxs, hids⟩ := Experiences.exists_interactions_toStore hf
  refine ⟨fun hv o => ?exact, fun hv o => ?binary, xs, hxs, fun store => ?_⟩
  case exact =>
    obtain ⟨ps, x, hx, env, b, own, env', hfits, hchain, s, hrun, hs, hcovers⟩ :=
      exists_run_scores ordered_rat hread hload hv hes hss hf hplace hargs o
    refine ⟨_, s, hrun, hs, hcovers, ?_⟩
    unfold ScoreRecord.ofAssessment
    rw [List.getLast?_map, Pipeline.getLast?_of_chain_eq hv hx hfits hchain]
    rfl
  case binary =>
    obtain ⟨ps, x, -, env, b, own, env', -, -, s, hrun, hs, hcovers⟩ :=
      exists_run_scores ordered_float hread hload hv hes hss hf hplace hargs o
    exact ⟨_, s, hrun, hs, hcovers⟩
  obtain ⟨x, hx, -⟩ := c.exists_context (knownPeers c (StatusRecord.toRoster ss) xs) store
  refine ⟨x, hx, fun hv source env henv => ?_, fun hv source env henv =>
    chain_covers_known ordered_float hv hf hids hx source henv⟩
  obtain ⟨b, own, env', hchain, hcovers⟩ :=
    chain_covers_known ordered_rat hv hf hids hx source henv
  exact ⟨b, own, env', hchain, hcovers,
    Pipeline.getLast?_of_chain_eq hv hx (fits_of_toStore hf henv) hchain⟩

end Cover

/-- Three of five known peers, of whom one has a row without a call that hides an earlier one. -/
theorem scores_cover_five :
    let c := { Config.ofHome "a" with preTrusted := ["b", "a"], maxMatrixSize := 3 }
    let es : List ExperienceRecord :=
      [⟨"f", "a", 2, 1, 5⟩, ⟨"d", "e", 1, 0, 7⟩, ⟨"f", "a", 0, 0, 9⟩]
    let ss : List StatusRecord := [⟨"c", .active⟩, ⟨"d", .inactive⟩]
    let a : Assets :=
      { config := .file (Codec.config.save c), experiences := .file (Schema.experience.save es),
        statuses := .file (Schema.status.save ss), scores := .free }
    a.config.read = .ok (Codec.config.save c) ∧
      Codec.config.load (Codec.config.save c) = .ok c ∧ c.validate ℚ = .ok () ∧
      rowsOf .experience a.experiences = .ok es ∧ rowsOf .status a.statuses = .ok ss ∧
      (∀ r ∈ latest ExperienceRecord.pair es, r.experience.Fits) ∧ a.scores ≠ .nowhere ∧
      Command.parse? ["scores"] = some .scores ∧
      (∀ o : Occasion, ∃ (rs : List (ScoreRecord ℚ)) (s : Session),
        run ℚ o ["scores"] a = (.ok (), s) ∧
        s.assets = { a with scores := .file (Schema.score.save rs) } ∧ rs.length = 3 ∧
        "b" ∈ rs.map ScoreRecord.peer ∧ "f" ∉ rs.map ScoreRecord.peer ∧
        rs.getLast? = some ⟨"a", 0⟩) ∧
      c.validate Float = .ok () ∧
      ∀ o : Occasion, ∃ (rs : List (ScoreRecord Float)) (s : Session),
        run Float o ["scores"] a = (.ok (), s) ∧ rs.length = 3 ∧ "b" ∈ rs.map ScoreRecord.peer := by
  intro c es ss a
  have hload : Codec.config.load (Codec.config.save c) = .ok c := Config.lawful.load_save c
  have hv : c.validate ℚ = .ok () := by decide +kernel
  have hes : rowsOf .experience a.experiences = .ok es :=
    Schema.load_save Schema.lawful_experience es
  have hss : rowsOf .status a.statuses = .ok ss := Schema.load_save Schema.lawful_status ss
  have hf : ∀ r ∈ latest ExperienceRecord.pair es, r.experience.Fits := by decide
  have hplace : a.scores ≠ .nowhere := by decide
  have hargs : Command.parse? ["scores"] = some .scores := by decide +kernel
  have hknown : c.known es ss = {"a", "b", "c", "d", "e"} := by decide +kernel
  have hv' : c.validate Float = .ok () := by decide +kernel
  obtain ⟨hexact, hbinary, -⟩ := scores_cover rfl hload hes hss hf hplace hargs
  have hthree : ∀ {ids : List String}, c.Covers (c.known es ss) ids →
      ids.length = 3 ∧ "b" ∈ ids ∧ "f" ∉ ids := by
    intro ids hcovers
    rw [hknown] at hcovers
    refine ⟨hcovers.length_eq (by decide), hcovers.preTrusted_subset (by decide) "b" (by decide),
      fun hmem => ?_⟩
    have hfive := hcovers.subset (List.mem_toFinset.mpr hmem)
    revert hfive
    decide
  refine ⟨rfl, hload, hv, hes, hss, hf, hplace, hargs, fun o => ?_, hv', fun o => ?_⟩
  · obtain ⟨rs, s, hrun, hs, hcovers, hlast⟩ := hexact hv o
    obtain ⟨hlength, hb, hhidden⟩ := hthree hcovers
    rw [List.length_map] at hlength
    exact ⟨rs, s, hrun, hs, hlength, hb, hhidden, hlast⟩
  · obtain ⟨rs, s, hrun, -, hcovers⟩ := hbinary hv' o
    obtain ⟨hlength, hb, -⟩ := hthree hcovers
    rw [List.length_map] at hlength
    exact ⟨rs, s, hrun, hlength, hb⟩

end Session

end Reputation
