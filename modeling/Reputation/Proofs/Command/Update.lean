import Mathlib.Data.List.Nodup
import Reputation.Proofs.Command.Frame
import Reputation.Proofs.Number.Unbroken
import Reputation.Proofs.Params

/-! # What an update sets

An update works on the configuration in place: it reads the text of one setting after the other and
puts in the value, and validates at the end. A text that cannot be read stops it, and what was put
in before stays. One setting is set or its text is refused, and no other setting is touched
(`Config.run_change`). So the configuration takes the texts of a first part of the settings, which
are all of them where the update succeeds, and is the same elsewhere (`Config.run_stages`,
`Config.update_takes`). -/

namespace Reputation

/-- **A setting that an update can change.** -/
inductive Setting where
  | home
  | preTrusted
  | algorithm
  | alpha
  | epsilon
  | maxIterations
  | cacheInterval
  | boostWeight
deriving DecidableEq, Repr

/-- A parameter, by its text and by the value that it is used with. -/
structure Parameter (α : Type) where
  text? : Option String
  value? : Option α

/-- The text that is given for a setting. -/
def UpdateOptions.text? (o : UpdateOptions) : Setting → Option String
  | .home => o.home
  | .preTrusted => o.preTrusted
  | .algorithm => o.algorithm
  | .alpha => o.alpha
  | .epsilon => o.epsilon
  | .maxIterations => o.maxIterations
  | .cacheInterval => o.cacheInterval
  | .boostWeight => o.boostWeight

namespace Setting

/-- The settings in the order in which they are applied. -/
def all : List Setting :=
  [.home, .preTrusted, .algorithm, .alpha, .epsilon, .maxIterations, .cacheInterval, .boostWeight]

theorem nodup_all : all.Nodup := by decide

/-- What a setting holds, with numbers in `K`. -/
def Value (K : Type) : Setting → Type
  | .home => String
  | .preTrusted => List String
  | .algorithm => Algorithm
  | .alpha => Parameter K
  | .epsilon => Parameter K
  | .maxIterations => Parameter ℤ
  | .cacheInterval => ℕ
  | .boostWeight => ℕ

/-- The parameter in which a setting is kept, if it is kept in one. -/
def parameter? : Setting → Option String
  | .alpha => some Params.alpha
  | .epsilon => some Params.epsilon
  | .maxIterations => some Params.maxIterations
  | _ => none

/-- A number that a text stands for. -/
def readNumber (K : Type) [Number K] (text : String) : Except TrustError (Parameter K) :=
  ((Numeral.read text).mapError .badNumeral).map fun n => ⟨some text, Number.ofNumeral? n⟩

/-- **The value that a text stands for**, or the refusal of the text. -/
def read (K : Type) [Number K] (text : String) : (s : Setting) → Except TrustError (s.Value K)
  | .home => .ok text
  | .preTrusted => .ok (Config.splitNames text)
  | .algorithm => Algorithm.read text
  | .alpha => readNumber K text
  | .epsilon => readNumber K text
  | .maxIterations =>
    ((readCount (UInt32.size - 1) text).mapError .badNumeral).map fun n => ⟨some text, some n⟩
  | .cacheInterval => (readCount (UInt64.size - 1) text).mapError .badNumeral
  | .boostWeight => (readCount (UInt32.size - 1) text).mapError .badNumeral

/-- The change that the text of a setting asks for. -/
def change (text : String) : Setting → Config.Change Unit
  | .home => modify fun c => { c with home := text }
  | .preTrusted => modify fun c => { c with preTrusted := Config.splitNames text }
  | .algorithm => do
    match Algorithm.read text with
    | .ok chosen => modify fun c => { c with algorithm := chosen }
    | .error e => throw e
  | .alpha => do
    let _ ← Config.readOr (Numeral.read text)
    Config.setParam Params.alpha text
  | .epsilon => do
    let _ ← Config.readOr (Numeral.read text)
    Config.setParam Params.epsilon text
  | .maxIterations => do
    let _ ← Config.readOr (readCount (UInt32.size - 1) text)
    Config.setParam Params.maxIterations text
  | .cacheInterval => do
    let n ← Config.readOr (readCount (UInt64.size - 1) text)
    modify fun c => { c with cacheInterval := UInt64.ofNat n }
  | .boostWeight => do
    let n ← Config.readOr (readCount (UInt32.size - 1) text)
    modify fun c => { c with boostWeight := UInt32.ofNat n }

end Setting

namespace Config

variable {K : Type} [Number K] {c c' : Config}

/-- What a configuration holds for a setting. -/
def value (K : Type) [Number K] (c : Config) : (s : Setting) → s.Value K
  | .home => c.home
  | .preTrusted => c.preTrusted
  | .algorithm => c.algorithm
  | .alpha => ⟨c.params.get? Params.alpha, (c.params.number Params.alpha).toOption⟩
  | .epsilon => ⟨c.params.get? Params.epsilon, (c.params.number Params.epsilon).toOption⟩
  | .maxIterations =>
    ⟨c.params.get? Params.maxIterations, (c.params.integer Params.maxIterations).toOption⟩
  | .cacheInterval => c.cacheInterval.toNat
  | .boostWeight => c.boostWeight.toNat

/-- The two configurations are the same in all that no update changes. -/
structure SameElse (c c' : Config) : Prop where
  minCommunication : c'.minCommunication = c.minCommunication
  maxMatrixSize : c'.maxMatrixSize = c.maxMatrixSize
  maxSelected : c'.maxSelected = c.maxSelected
  param {name : String} (h : ∀ s : Setting, s.parameter? ≠ some name) :
    c'.params.get? name = c.params.get? name

/-- **A configuration that has taken some settings of an update**: where a text is given for one of
them, it holds the value of the text, and elsewhere it is the same as before. -/
structure Takes (K : Type) [Number K] (o : UpdateOptions) (ss : List Setting) (c c' : Config) :
    Prop where
  given {s : Setting} {text : String} (hs : s ∈ ss) (ht : o.text? s = some text) :
    s.read K text = .ok (c'.value K s)
  kept {s : Setting} (h : s ∈ ss → o.text? s = none) : c'.value K s = c.value K s
  rest : c.SameElse c'

/-- **Why an update stops** before the first of some settings: its text is refused, or, where no
setting is left, the configuration is. -/
def Stops (K : Type) [Number K] (o : UpdateOptions) (c : Config) (e : TrustError) :
    List Setting → Prop
  | [] => c.validate K = .error e
  | s :: _ => ∃ text, o.text? s = some text ∧ s.read K text = .error e

end Config

/-! ### Parameters that are set -/

namespace Params

variable {p p' : Params} {name text : String}

theorem ext_get? (h : ∀ name, p'.get? name = p.get? name) : p' = p :=
  congrArg mk (Std.ExtTreeMap.ext_getElem? h)

theorem get?_set (p : Params) (name text other : String) :
    (p.set name text).get? other = if name = other then some text else p.get? other := by
  unfold set get?
  simp only [Std.ExtTreeMap.getElem?_insert, Std.LawfulEqCmp.compare_eq_iff_eq]

/-- **A parameter that was set gives the value of its text.** -/
theorem parameter_set {α : Type} (p : Params) (read? : String → Option α) (name text : String) :
    (⟨(p.set name text).get? name, ((p.set name text).required read? name).toOption⟩ :
      Parameter α) = ⟨some text, read? text⟩ := by
  have hget : (p.set name text).get? name = some text := by rw [get?_set, if_pos rfl]
  rw [required_eq hget, hget]
  cases read? text <;> rfl

theorem required_congr {α : Type} (h : p'.get? name = p.get? name) (read? : String → Option α) :
    p'.required read? name = p.required read? name := by
  unfold required Params.text
  rw [h]

end Params

theorem Setting.eq_of_parameter? {s t : Setting} {name : String} (hs : s.parameter? = some name)
    (ht : t.parameter? = some name) : s = t := by
  have h : ∀ s t : Setting, s.parameter?.isSome → s.parameter? = t.parameter? → s = t := by
    intro s t
    cases s <;> cases t <;> decide
  exact h s t (by rw [hs]; rfl) (hs.trans ht.symm)

namespace Config

variable {K : Type} [Number K] {c c' : Config} {o : UpdateOptions}

/-- Setting a parameter changes no setting that is kept elsewhere. -/
theorem value_setParam {s : Setting} {name : String} (h : s.parameter? ≠ some name) (text : String)
    (c : Config) : { c with params := c.params.set name text }.value K s = c.value K s := by
  have hget {other : String} (hs : s.parameter? = some other) :
      (c.params.set name text).get? other = c.params.get? other := by
    rw [Params.get?_set, if_neg fun he => h (hs.trans (congrArg some he.symm))]
  cases s with
  | alpha | epsilon | maxIterations =>
    unfold value Params.number Params.integer
    dsimp only
    rw [hget rfl, Params.required_congr (hget rfl)]
  | _ => rfl

theorem sameElse_setParam {s : Setting} {name : String} (h : s.parameter? = some name)
    (text : String) (c : Config) : c.SameElse { c with params := c.params.set name text } where
  minCommunication := rfl
  maxMatrixSize := rfl
  maxSelected := rfl
  param hother := by
    rw [Params.get?_set, if_neg fun he => hother s (h.trans (congrArg some he))]

theorem SameElse.refl (c : Config) : c.SameElse c := ⟨rfl, rfl, rfl, fun _ => rfl⟩

theorem SameElse.trans {c₁ : Config} (h : c.SameElse c₁) (h' : c₁.SameElse c') : c.SameElse c' where
  minCommunication := h'.minCommunication.trans h.minCommunication
  maxMatrixSize := h'.maxMatrixSize.trans h.maxMatrixSize
  maxSelected := h'.maxSelected.trans h.maxSelected
  param hname := (h'.param hname).trans (h.param hname)

/-- The settings tell the rest of a configuration. -/
theorem eq_of_value (hvalue : ∀ s, c'.value K s = c.value K s) (h : c.SameElse c') : c' = c := by
  have hparams : c'.params = c.params := by
    refine Params.ext_get? fun name => ?_
    by_cases hname : ∃ s : Setting, s.parameter? = some name
    · obtain ⟨s, hs⟩ := hname
      have hs' := hvalue s
      cases s with
      | alpha | epsilon | maxIterations =>
        cases hs
        exact congrArg Parameter.text? hs'
      | _ => cases hs
    · exact h.param fun s hs => hname ⟨s, hs⟩
  have hinterval : c'.cacheInterval = c.cacheInterval :=
    UInt64.toNat_inj.mp (hvalue .cacheInterval)
  have hweight : c'.boostWeight = c.boostWeight := UInt32.toNat_inj.mp (hvalue .boostWeight)
  cases c
  cases c'
  rw [mk.injEq]
  exact ⟨hvalue .home, hvalue .preTrusted, hvalue .algorithm, hinterval, hweight,
    h.minCommunication, h.maxMatrixSize, h.maxSelected, hparams⟩

/-! ### One setting -/

/-- The two configurations are the same but for one setting. -/
structure SameBut (K : Type) [Number K] (s : Setting) (c c' : Config) : Prop where
  value {t : Setting} (h : t ≠ s) : c'.value K t = c.value K t
  rest : c.SameElse c'

theorem sameBut_setParam {s : Setting} {name : String} (h : s.parameter? = some name)
    (text : String) (c : Config) : c.SameBut K s { c with params := c.params.set name text } where
  value ht := value_setParam (fun hname => ht (Setting.eq_of_parameter? hname h)) text c
  rest := sameElse_setParam h text c

/-- Puts a value in a setting that is kept outside the parameters. -/
def putField (c : Config) : (s : Setting) → s.Value K → Config
  | .home, name => { c with home := name }
  | .preTrusted, names => { c with preTrusted := names }
  | .algorithm, chosen => { c with algorithm := chosen }
  | .cacheInterval, n => { c with cacheInterval := UInt64.ofNat n }
  | .boostWeight, n => { c with boostWeight := UInt32.ofNat n }
  | .alpha, _ | .epsilon, _ | .maxIterations, _ => c

theorem sameBut_putField (c : Config) (s : Setting) (v : s.Value K) :
    c.SameBut K s (c.putField s v) where
  value {t} ht := by
    cases s <;> cases t <;> first | rfl | exact absurd rfl ht
  rest := by
    cases s <;> exact ⟨rfl, rfl, rfl, fun _ => rfl⟩

/-- **A setting is set or its text is refused**, and nothing else changes. -/
theorem run_change (text : String) (s : Setting) (c : Config) :
    match s.read K text with
    | .error e => (s.change text).run.run c = (.error e, c)
    | .ok v => ∃ c', (s.change text).run.run c = (.ok (), c') ∧ c'.value K s = v ∧
        c.SameBut K s c' := by
  cases s with
  | home => exact ⟨_, rfl, rfl, c.sameBut_putField .home text⟩
  | preTrusted => exact ⟨_, rfl, rfl, c.sameBut_putField .preTrusted (splitNames text)⟩
  | algorithm =>
    unfold Setting.read Setting.change
    cases Algorithm.read text with
    | error e => rfl
    | ok chosen => exact ⟨_, rfl, rfl, c.sameBut_putField .algorithm chosen⟩
  | alpha | epsilon =>
    unfold Setting.read Setting.readNumber Setting.change
    cases hread : Numeral.read text with
    | error e => rfl
    | ok n =>
      refine ⟨_, rfl, ?_, sameBut_setParam rfl text c⟩
      exact (Params.parameter_set _ _ _ _).trans (by rw [Params.readNumber?_of_read hread])
  | maxIterations =>
    unfold Setting.read Setting.change
    cases hread : readCount (UInt32.size - 1) text with
    | error e => rfl
    | ok n =>
      refine ⟨_, rfl, ?_, sameBut_setParam rfl text c⟩
      exact (Params.parameter_set _ _ _ _).trans (by rw [Params.readInteger?_of_readCount hread])
  | cacheInterval =>
    unfold Setting.read Setting.change
    cases hread : readCount (UInt64.size - 1) text with
    | error e => rfl
    | ok n =>
      have hn : n < UInt64.size := Nat.lt_of_le_pred (by decide) (le_of_readCount hread)
      exact ⟨_, rfl, UInt64.toNat_ofNat_of_lt hn, c.sameBut_putField .cacheInterval n⟩
  | boostWeight =>
    unfold Setting.read Setting.change
    cases hread : readCount (UInt32.size - 1) text with
    | error e => rfl
    | ok n =>
      have hn : n < UInt32.size := Nat.lt_of_le_pred (by decide) (le_of_readCount hread)
      exact ⟨_, rfl, UInt32.toNat_ofNat_of_lt hn, c.sameBut_putField .boostWeight n⟩

/-! ### The settings in turn -/

/-- What an update does for one setting. -/
def stage (o : UpdateOptions) (s : Setting) : Change Unit :=
  whenGiven (o.text? s) fun text => s.change text

/-- **The options are applied setting by setting.** -/
theorem applyOptions_eq (o : UpdateOptions) : applyOptions o = Setting.all.forM (stage o) := by
  have hlast : stage o .boostWeight = (do stage o .boostWeight; pure ()) := bind_pure_unit.symm
  change (do
    stage o .home
    stage o .preTrusted
    stage o .algorithm
    stage o .alpha
    stage o .epsilon
    stage o .maxIterations
    stage o .cacheInterval
    stage o .boostWeight) = _
  rw [hlast]
  rfl

/-- Settings without a text are taken where nothing is done. -/
theorem takes_of_none {ss : List Setting} (c : Config) (h : ∀ s ∈ ss, o.text? s = none) :
    c.Takes K o ss c where
  given hs ht := by cases (h _ hs).symm.trans ht
  kept _ := rfl
  rest := .refl c

theorem takes_singleton {s : Setting} {text : String} (ho : o.text? s = some text)
    (hread : s.read K text = .ok (c'.value K s)) (h : c.SameBut K s c') : c.Takes K o [s] c' where
  given ht hgiven := by
    cases List.mem_singleton.mp ht
    cases ho.symm.trans hgiven
    exact hread
  kept {t} ht := h.value fun hts => by
    rw [hts] at ht
    cases ho.symm.trans (ht List.mem_cons_self)
  rest := h.rest

/-- **One setting is taken**, or the configuration is the same and the text is refused. -/
theorem run_stage (s : Setting) :
    match (stage o s).run.run c with
    | (.ok (), c') => c.Takes K o [s] c'
    | (.error e, c') => c' = c ∧ Stops K o c' e [s] := by
  unfold stage
  cases ho : o.text? s with
  | none => exact takes_of_none c fun t ht => List.mem_singleton.mp ht ▸ ho
  | some text =>
    have hchange := run_change (K := K) text s c
    unfold whenGiven
    dsimp only
    cases hread : s.read K text with
    | error e =>
      rw [hread] at hchange
      dsimp only at hchange
      rw [hchange]
      exact ⟨rfl, text, ho, hread⟩
    | ok v =>
      rw [hread] at hchange
      obtain ⟨c', hrun, rfl, hsame⟩ := hchange
      rw [hrun]
      exact takes_singleton ho hread hsame

/-- **Settings are taken one after another**: a later one leaves the earlier ones alone. -/
theorem Takes.cons {s : Setting} {ss : List Setting} {c₁ : Config} (h : c.Takes K o [s] c₁)
    (h' : c₁.Takes K o ss c') (hs : s ∉ ss) : c.Takes K o (s :: ss) c' where
  given {t text} ht hgiven := by
    rcases List.mem_cons.mp ht with rfl | ht
    · rw [h'.kept fun hmem => absurd hmem hs]
      exact h.given List.mem_cons_self hgiven
    · exact h'.given ht hgiven
  kept {t} ht := by
    rw [h'.kept fun hmem => ht (List.mem_cons_of_mem _ hmem)]
    exact h.kept fun hmem => ht (List.mem_singleton.mp hmem ▸ List.mem_cons_self)
  rest := h.rest.trans h'.rest

/-- **A configuration that has taken no text is the same.** -/
theorem Takes.eq_of_none {ss : List Setting} (h : c.Takes K o ss c')
    (hnone : ∀ s ∈ ss, o.text? s = none) : c' = c :=
  eq_of_value (fun s => h.kept (hnone s)) h.rest

/-- **A run over some settings** takes all of them, or a first part of them up to the one whose text
is refused. -/
theorem run_stages {ss : List Setting} (hss : ss.Nodup) :
    match (ss.forM (stage o)).run.run c with
    | (.ok (), c') => c.Takes K o ss c'
    | (.error e, c') => ∃ done s rest, ss = done ++ s :: rest ∧ c.Takes K o done c' ∧
        Stops K o c' e (s :: rest) := by
  induction ss generalizing c with
  | nil => exact takes_of_none c nofun
  | cons s ss ih =>
    obtain ⟨hs, hss⟩ := List.nodup_cons.mp hss
    change match (stage o s >>= fun _ => ss.forM (stage o)).run.run c with
    | (.ok (), c') => _
    | (.error e, c') => _
    rw [run_bind]
    have hfirst := run_stage (K := K) (o := o) (c := c) s
    rcases hrun : (stage o s).run.run c with ⟨e | y, c₁⟩
    · rw [hrun] at hfirst
      obtain ⟨rfl, hstops⟩ := hfirst
      exact ⟨[], s, ss, rfl, takes_of_none _ nofun, hstops⟩
    · rw [hrun] at hfirst
      have hlater := ih (c := c₁) hss
      dsimp only at hfirst ⊢
      rcases hrun' : (ss.forM (stage o)).run.run c₁ with ⟨e | y', c'⟩
      · rw [hrun'] at hlater
        obtain ⟨done, t, rest, rfl, htakes, hstops⟩ := hlater
        exact ⟨s :: done, t, rest, rfl,
          hfirst.cons htakes fun hmem => hs (List.mem_append_left _ hmem), hstops⟩
      · rw [hrun'] at hlater
        exact hfirst.cons hlater hs

/-- The command of a refused update stops and leaves everything else alone. -/
theorem run_session_update {e : TrustError} (h : c.update K o = (.error e, c')) (t : Session) :
    (Session.update K c o).run.run t = (.error (.failure (.error e)), t) := by
  unfold Session.update
  rw [h]
  rfl

/-- **What an update sets.** If it succeeds, the configuration holds the value of the text for every
setting with a text, is the same elsewhere and is valid. If it is refused, this holds for a first
part of the settings, before the one whose text is refused or, where it is the configuration that is
refused, for all: so the configuration is the same if none of that part has a text. The command
then stops and writes nothing. -/
theorem update_takes (K : Type) [Number K] (c : Config) (o : UpdateOptions) :
    match c.update K o with
    | (.ok (), c') => c.Takes K o Setting.all c' ∧ c'.validate K = .ok ()
    | (.error e, c') => ∃ done rest, Setting.all = done ++ rest ∧ c.Takes K o done c' ∧
        Stops K o c' e rest ∧ ((∀ s ∈ done, o.text? s = none) → c' = c) ∧
        ∀ t, (Session.update K c o).run.run t = (.error (.failure (.error e)), t) := by
  have hstages := run_stages (K := K) (o := o) (c := c) Setting.nodup_all
  rw [← applyOptions_eq] at hstages
  have hupdate := update_eq (K := K) c o
  rcases hrun : (applyOptions o).run.run c with ⟨e | y, c'⟩
  · rw [hrun] at hstages hupdate
    obtain ⟨done, s, rest, hall, htakes, hstops⟩ := hstages
    rw [hupdate]
    exact ⟨done, s :: rest, hall, htakes, hstops, htakes.eq_of_none, run_session_update hupdate⟩
  · rw [hrun] at hstages hupdate
    dsimp only at hstages hupdate
    rw [hupdate]
    cases hvalid : c'.validate K with
    | ok _ => exact ⟨hstages, hvalid⟩
    | error e =>
      rw [hvalid] at hupdate
      exact ⟨Setting.all, [], (List.append_nil _).symm, hstages, hvalid, hstages.eq_of_none,
        run_session_update hupdate⟩

/-- A refused update of a name and a weight leaves the new name. -/
theorem update_leaves_name :
    (Config.ofHome "local").update Float
        ⟨some "other", none, none, none, none, none, none, some "many"⟩ =
      (.error (.badNumeral .badDigit), Config.ofHome "other") ∧
    Config.ofHome "other" ≠ Config.ofHome "local" := by
  refine ⟨rfl, fun h => ?_⟩
  have hname : "other" = "local" := congrArg home h
  exact absurd hname (by decide)

end Config

end Reputation
