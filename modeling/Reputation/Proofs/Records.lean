import Reputation.Proofs.Experience.Listing
import Reputation.Proofs.Latest
import Reputation.Records

/-! # What is kept of a store in records

The rows of a store tell its experiences with a call (`Experiences.kept`) and nothing else, and a
store that is read back from them has just these (`Experiences.entries_toStore_rows`). Recording
looks at counters and writes a new time, so two stores of which the same is kept go on alike
(`Experiences.enact_congr`): nothing is lost by saving and loading between two interactions. A run
counts the calls of each pair by their outcome (`Experiences.enact_tallies`). -/

namespace Reputation

namespace Experience

variable {e e' : Experience} {outcome : Outcome} {t : Instant}

/-- The number of calls, even if it is no 64-bit count. -/
def total (e : Experience) : ℕ := e.successes.toNat + e.failures.toNat

theorem fits_iff_total : e.Fits ↔ e.total < UInt64.size := Iff.rfl

theorem eq_zero_of_not_used (h : e.used = false) : e.successes = 0 ∧ e.failures = 0 := by
  have h0 : ¬ 0 < e.successes.toNat + e.failures.toNat := of_decide_eq_false h
  constructor
  · have hs : e.successes.toNat = 0 := by omega
    exact UInt64.toNat_inj.mp hs
  · have hf : e.failures.toNat = 0 := by omega
    exact UInt64.toNat_inj.mp hf

/-- Recording looks at the counters alone. -/
theorem record_congr (hn : outcome ≠ .neutral) (hs : e.successes = e'.successes)
    (hf : e.failures = e'.failures) : e.record outcome t = e'.record outcome t := by
  cases outcome with
  | neutral => exact absurd rfl hn
  | success =>
    unfold record
    rw [hs, hf]
  | failure =>
    unfold record
    rw [hs, hf]

end Experience

/-- **An interaction**, as it is recorded. -/
structure Interaction where
  observer : Peer
  partner : Peer
  outcome : Outcome
  time : Instant
deriving DecidableEq

namespace Interaction

/-- Does it say something about another peer? -/
def IsCall (i : Interaction) : Prop := i.observer.id ≠ i.partner.id ∧ i.outcome ≠ .neutral

instance (i : Interaction) : Decidable i.IsCall := inferInstanceAs (Decidable (_ ∧ _))

/-- Is it a call of one peer with another? -/
def Counts (p q : Peer) (i : Interaction) : Prop :=
  i.IsCall ∧ i.observer.id = p.id ∧ i.partner.id = q.id

instance (p q : Peer) (i : Interaction) : Decidable (i.Counts p q) :=
  inferInstanceAs (Decidable (_ ∧ _))

/-- The number of calls of one peer with another. -/
def calls (is : List Interaction) (p q : Peer) : ℕ := is.countP fun i => i.Counts p q

theorem calls_append (is js : List Interaction) (p q : Peer) :
    calls (is ++ js) p q = calls is p q + calls js p q := List.countP_append

end Interaction

namespace Experience

/-- **What recorded interactions make of an experience**: each is counted under its outcome, and the
time is that of the last one. -/
structure Tallies (e : Experience) (is : List Interaction) (e' : Experience) : Prop where
  successes : e'.successes.toNat = e.successes.toNat + is.countP fun i => i.outcome = .success
  failures : e'.failures.toNat = e.failures.toNat + is.countP fun i => i.outcome = .failure
  updated : e'.updated = (is.getLast?.map Interaction.time).getD e.updated

namespace Tallies

variable {e e' e'' : Experience} {i : Interaction} {is js : List Interaction}

theorem refl (e : Experience) : e.Tallies [] e := ⟨rfl, rfl, rfl⟩

theorem record (h : e.record i.outcome i.time = .ok e') : e.Tallies [i] e' := by
  obtain ⟨hs, hf, hu⟩ := record_spec h
  exact ⟨by simpa using hs, by simpa using hf, hu⟩

theorem append (h : e.Tallies is e') (h' : e'.Tallies js e'') : e.Tallies (is ++ js) e'' where
  successes := by rw [List.countP_append, h'.successes, h.successes, Nat.add_assoc]
  failures := by rw [List.countP_append, h'.failures, h.failures, Nat.add_assoc]
  updated := by
    rw [List.getLast?_append, h'.updated]
    cases js.getLast? with
    | none => exact h.updated
    | some j => rfl

theorem eq_self (h : e.Tallies [] e') : e' = e := by
  obtain ⟨s, f, u⟩ := e
  obtain ⟨s', f', u'⟩ := e'
  obtain rfl : s' = s := UInt64.toNat_inj.mp h.successes
  obtain rfl : f' = f := UInt64.toNat_inj.mp h.failures
  obtain rfl : u' = u := h.updated
  rfl

/-- Every interaction that is not neutral is one more call. -/
theorem total (h : e.Tallies is e') (hn : ∀ i ∈ is, i.outcome ≠ .neutral) :
    e'.total = e.total + is.length := by
  have hsplit : is.length = (is.countP fun i => i.outcome = .success) +
      is.countP fun i => i.outcome = .failure := by
    rw [List.length_eq_countP_add_countP (fun i : Interaction => i.outcome = .success)]
    refine congrArg _ (List.countP_congr fun i hi => ?_)
    have hi := hn i hi
    cases ho : i.outcome with
    | neutral => exact absurd ho hi
    | success => simp
    | failure => simp
  unfold Experience.total
  rw [h.successes, h.failures]
  omega

end Tallies

end Experience

namespace Experiences

variable {s s' : Experiences} {o p : Peer}

/-! ### What is kept -/

/-- **The experiences with a call.** -/
def kept (s : Experiences) : Std.ExtTreeMap Pair Experience := s.entries.filter fun _ e => e.used

theorem getElem?_kept (s : Experiences) (k : Pair) :
    s.kept[k]? = s.entries[k]?.filter Experience.used := Std.ExtTreeMap.getElem?_filter'

theorem getD_kept (s : Experiences) (o p : Peer) :
    (s.kept[key o p]?).getD .none = if (s.peek o p).used then s.peek o p else .none := by
  rw [getElem?_kept]
  unfold peek
  cases s.entries[key o p]? with
  | none => rfl
  | some e =>
    cases he : e.used with
    | true => rw [Option.filter_some_pos he]; simp [he]
    | false => rw [Option.filter_some_neg (by simp [he])]; simp [he]

theorem counters_eq (s : Experiences) (o p : Peer) :
    (s.peek o p).successes = ((s.kept[key o p]?).getD .none).successes ∧
      (s.peek o p).failures = ((s.kept[key o p]?).getD .none).failures := by
  rw [getD_kept]
  cases hu : (s.peek o p).used with
  | true => exact ⟨rfl, rfl⟩
  | false => exact Experience.eq_zero_of_not_used hu

theorem fits_congr (h : s.kept = s'.kept) (o p : Peer) :
    (s.peek o p).Fits ↔ (s'.peek o p).Fits := by
  unfold Experience.Fits
  rw [(s.counters_eq o p).1, (s.counters_eq o p).2, (s'.counters_eq o p).1, (s'.counters_eq o p).2, h]

theorem kept_put_congr (h : s.kept = s'.kept) (o p : Peer) (e : Experience) :
    (s.put o p e).kept = (s'.put o p e).kept := by
  refine Std.ExtTreeMap.ext_getElem? fun k => ?_
  have hk : s.entries[k]?.filter Experience.used = s'.entries[k]?.filter Experience.used := by
    rw [← getElem?_kept, ← getElem?_kept, h]
  rw [getElem?_kept, getElem?_kept, getElem?_entries_put, getElem?_entries_put]
  split
  · rfl
  · exact hk

/-! ### Recording -/

/-- Records one interaction. -/
def enter (s : Experiences) (i : Interaction) : Except Fault Experiences :=
  s.record i.observer i.partner i.outcome i.time

/-- **Records some interactions in order.** -/
def enact (s : Experiences) (is : List Interaction) : Except Fault Experiences := is.foldlM enter s

variable {i : Interaction} {is : List Interaction}

theorem enact_singleton (s : Experiences) (i : Interaction) : s.enact [i] = s.enter i := by
  unfold enact
  rw [List.foldlM_cons]
  cases s.enter i <;> rfl

theorem enact_cons (s : Experiences) (i : Interaction) (is : List Interaction) :
    s.enact (i :: is) = s.enact [i] >>= fun s => s.enact is := by
  rw [enact_singleton]
  exact List.foldlM_cons

theorem enter_of_not_isCall (s : Experiences) (h : ¬ i.IsCall) : s.enter i = .ok s :=
  s.record_of_not_call i.time h

theorem enter_of_isCall (s : Experiences) (h : i.IsCall) :
    s.enter i = ((s.peek i.observer i.partner).record i.outcome i.time).map
      (s.put i.observer i.partner) := s.record_of_call i.time h

theorem enter_congr (h : s.kept = s'.kept) (i : Interaction) :
    (s.enter i).map kept = (s'.enter i).map kept := by
  by_cases hi : i.IsCall
  · have hs := s.counters_eq i.observer i.partner
    have hs' := s'.counters_eq i.observer i.partner
    have hrec : (s.peek i.observer i.partner).record i.outcome i.time =
        (s'.peek i.observer i.partner).record i.outcome i.time := by
      refine Experience.record_congr hi.2 ?_ ?_
      · rw [hs.1, hs'.1, h]
      · rw [hs.2, hs'.2, h]
    rw [enter_of_isCall s hi, enter_of_isCall s' hi, hrec]
    cases (s'.peek i.observer i.partner).record i.outcome i.time with
    | error _ => rfl
    | ok e => exact congrArg Except.ok (kept_put_congr h _ _ e)
  · rw [enter_of_not_isCall s hi, enter_of_not_isCall s' hi]
    exact congrArg Except.ok h

/-- **Stores of which the same is kept go on alike.** -/
theorem enact_congr (h : s.kept = s'.kept) (is : List Interaction) :
    (s.enact is).map kept = (s'.enact is).map kept := by
  unfold enact
  induction is generalizing s s' with
  | nil => exact congrArg Except.ok h
  | cons i is ih =>
    rw [List.foldlM_cons, List.foldlM_cons]
    have hi := enter_congr h i
    cases hs : s.enter i with
    | error f =>
      cases hs' : s'.enter i with
      | error f' => rw [hs, hs'] at hi; cases hi; rfl
      | ok s₁' => rw [hs, hs'] at hi; cases hi
    | ok s₁ =>
      cases hs' : s'.enter i with
      | error f' => rw [hs, hs'] at hi; cases hi
      | ok s₁' =>
        rw [hs, hs'] at hi
        exact ih (Except.ok.inj hi)

theorem exists_enact_congr (h : s.kept = s'.kept) {final : Experiences}
    (hs : s.enact is = .ok final) : ∃ final', s'.enact is = .ok final' ∧ final'.kept = final.kept := by
  have hkept := enact_congr h is
  rw [hs] at hkept
  cases hs' : s'.enact is with
  | error f => rw [hs'] at hkept; cases hkept
  | ok final' =>
    rw [hs'] at hkept
    exact ⟨final', rfl, (Except.ok.inj hkept).symm⟩

/-- What is no call can be left out. -/
theorem enact_filter (s : Experiences) (is : List Interaction) :
    s.enact (is.filter fun i => i.IsCall) = s.enact is := by
  unfold enact
  induction is generalizing s with
  | nil => rfl
  | cons i is ih =>
    rw [List.foldlM_cons]
    by_cases hi : i.IsCall
    · rw [List.filter_cons_of_pos (by simpa using hi), List.foldlM_cons]
      cases s.enter i with
      | error _ => rfl
      | ok s₁ => exact ih s₁
    · rw [List.filter_cons_of_neg (by simpa using hi), enter_of_not_isCall s hi]
      exact ih s

/-! ### One pair over a run -/

theorem enter_tallies (h : s.enter i = .ok s') (p q : Peer) :
    (s.peek p q).Tallies ([i].filter fun i => i.Counts p q) (s'.peek p q) := by
  rcases record_cases h with ⟨hi, rfl⟩ | ⟨hi, e, he, rfl⟩
  · have hc : ¬ i.Counts p q := fun hc => hi hc.1
    rw [List.filter_cons_of_neg (by simpa using hc)]
    exact .refl _
  · rw [peek_put]
    by_cases hpq : i.observer.id = p.id ∧ i.partner.id = q.id
    · have hc : i.Counts p q := ⟨hi, hpq⟩
      rw [if_pos hpq, List.filter_cons_of_pos (by simpa using hc), ← s.peek_congr hpq.1 hpq.2]
      exact .record he
    · have hc : ¬ i.Counts p q := fun hc => hpq hc.2
      rw [if_neg hpq, List.filter_cons_of_neg (by simpa using hc)]
      exact .refl _

/-- **A run counts the calls of each pair**, and notes the time of the last one. -/
theorem enact_tallies (h : s.enact is = .ok s') (p q : Peer) :
    (s.peek p q).Tallies (is.filter fun i => i.Counts p q) (s'.peek p q) := by
  unfold enact at h
  induction is generalizing s with
  | nil => cases h; exact .refl _
  | cons i is ih =>
    rw [List.foldlM_cons] at h
    obtain ⟨s₁, hi, h⟩ := bind_eq_ok h
    rw [← List.singleton_append, List.filter_append]
    exact (enter_tallies hi p q).append (ih h)

theorem total_enact (h : s.enact is = .ok s') (p q : Peer) :
    (s'.peek p q).total = (s.peek p q).total + Interaction.calls is p q := by
  unfold Interaction.calls
  rw [List.countP_eq_length_filter]
  refine (enact_tallies h p q).total fun i hi => ?_
  have hc : i.Counts p q := by simpa using (List.mem_filter.mp hi).2
  exact hc.1.2

/-- A run leaves the pairs without a call as they are. -/
theorem peek_enact_of_calls_eq_zero (h : s.enact is = .ok s') {p q : Peer}
    (h0 : Interaction.calls is p q = 0) : s'.peek p q = s.peek p q := by
  have hnone : (is.filter fun i => i.Counts p q) = [] := by
    unfold Interaction.calls at h0
    rw [List.countP_eq_length_filter] at h0
    exact List.eq_nil_of_length_eq_zero h0
  have ht := enact_tallies h p q
  rw [hnone] at ht
  exact ht.eq_self

theorem exists_enter (i : Interaction)
    (h : i.IsCall → (s.peek i.observer i.partner).total + 1 < UInt64.size) :
    ∃ s', s.enter i = .ok s' := by
  by_cases hi : i.IsCall
  · have hroom := h hi
    unfold Experience.total at hroom
    obtain ⟨e, he⟩ : ∃ e, (s.peek i.observer i.partner).record i.outcome i.time = .ok e :=
      Experience.exists_record i.time (fun _ => by omega) fun _ => by omega
    exact ⟨s.put i.observer i.partner e, by rw [enter_of_isCall s hi, he]; rfl⟩
  · exact ⟨s, enter_of_not_isCall s hi⟩

/-- **A run whose calls can be counted ends in a store.** -/
theorem exists_enact
    (h : ∀ p q, (s.peek p q).total + Interaction.calls is p q < UInt64.size) :
    ∃ s', s.enact is = .ok s' := by
  unfold enact
  induction is generalizing s with
  | nil => exact ⟨s, rfl⟩
  | cons i is ih =>
    obtain ⟨s₁, hi⟩ : ∃ s₁, s.enter i = .ok s₁ := by
      refine exists_enter i fun hi => ?_
      have hroom := h i.observer i.partner
      have hcalls : 0 < Interaction.calls (i :: is) i.observer i.partner :=
        List.countP_pos_iff.mpr ⟨i, List.mem_cons_self, by simpa using ⟨hi, rfl, rfl⟩⟩
      omega
    have hrest : ∀ p q, (s₁.peek p q).total + Interaction.calls is p q < UInt64.size := by
      intro p q
      have hroom := h p q
      have hone : s.enact [i] = .ok s₁ := (enact_singleton s i).trans hi
      have htotal := total_enact hone p q
      rw [← List.singleton_append, Interaction.calls_append] at hroom
      omega
    obtain ⟨s', hs'⟩ := ih hrest
    exact ⟨s', by rw [List.foldlM_cons, hi]; exact hs'⟩

theorem Named.enter (hn : s.Named) (h : s.enter i = .ok s') : s'.Named := by
  rcases record_cases h with ⟨-, rfl⟩ | ⟨-, e, -, rfl⟩
  · exact hn
  · exact hn.put _ _ e

theorem Named.enact (hn : s.Named) (h : s.enact is = .ok s') : s'.Named := by
  unfold Experiences.enact at h
  induction is generalizing s with
  | nil => cases h; exact hn
  | cons i is ih =>
    rw [List.foldlM_cons] at h
    obtain ⟨s₁, hi, h⟩ := bind_eq_ok h
    exact ih (hn.enter hi) h

/-! ### Rows -/

/-- The rows of the experiences with a call. -/
def rows (s : Experiences) : List ExperienceRecord :=
  s.kept.toList.map fun x =>
    ⟨x.1.observer, x.1.partner, x.2.successes, x.2.failures, x.2.updated.seconds⟩

/-- **What is saved of a store.** -/
theorem ofStore_eq_ok_iff (hn : s.Named) {rs : List ExperienceRecord} :
    ExperienceRecord.ofStore s = .ok rs ↔ (∀ o p, (s.peek o p).Fits) ∧ rs = s.rows := by
  have hrows (hf : ∀ o p, (s.peek o p).Fits) : ExperienceRecord.ofStore s = .ok s.rows := by
    unfold ExperienceRecord.ofStore rows kept
    rw [interactions_eq hf, Std.ExtTreeMap.toList_filter]
    change Except.ok (List.map _ (List.map _ _)) = _
    rw [List.map_map]
    refine congrArg Except.ok (List.map_congr_left fun x _ => ?_)
    unfold ExperienceRecord.ofExperience
    simp only [Function.comp_def, hn.id_peerOf]
  constructor
  · intro h
    have hf : ∀ o p, (s.peek o p).Fits := by
      cases hi : s.interactions with
      | error f =>
        unfold ExperienceRecord.ofStore at h
        rw [hi] at h
        cases h
      | ok xs => exact fits_of_interactions hi
    rw [hrows hf] at h
    cases h
    exact ⟨hf, rfl⟩
  · rintro ⟨hf, rfl⟩
    exact hrows hf

theorem rows_congr (h : s.kept = s'.kept) : s.rows = s'.rows := by unfold rows; rw [h]

theorem named_toStore (rs : List ExperienceRecord) : (ExperienceRecord.toStore rs).Named := by
  have hfold : ∀ s : Experiences, s.Named → (rs.foldl (fun s r =>
      s.put (.named r.observer) (.named r.partner) r.experience) s).Named := by
    induction rs with
    | nil => exact fun _ hs => hs
    | cons r rs ih => exact fun s hs => ih _ (hs.put _ _ _)
  exact hfold .empty (named_new _)

theorem entries_toStore (rs : List ExperienceRecord) : (ExperienceRecord.toStore rs).entries =
    Std.ExtTreeMap.ofList (rs.map fun r => (Pair.mk r.observer r.partner, r.experience)) := by
  have hfold : ∀ s : Experiences, (rs.foldl (fun s r =>
      s.put (.named r.observer) (.named r.partner) r.experience) s).entries =
        (rs.map fun r => (Pair.mk r.observer r.partner, r.experience)).foldl
          (fun t x => t.insert x.1 x.2) s.entries := by
    induction rs with
    | nil => exact fun _ => rfl
    | cons r rs ih => exact fun s => ih _
  rw [Std.ExtTreeMap.ofList_eq_insertMany_empty, Std.ExtTreeMap.insertMany_list_eq_foldl]
  exact hfold .empty

/-- **A store that is read back** holds the experiences with a call. -/
theorem entries_toStore_rows (s : Experiences) :
    (ExperienceRecord.toStore s.rows).entries = s.kept := by
  have hlist : (s.rows.map fun r => (Pair.mk r.observer r.partner, r.experience)) =
      s.kept.toList := by
    unfold rows
    rw [List.map_map]
    exact List.map_id _
  rw [entries_toStore, hlist]
  exact ofList_toList s.kept

theorem kept_toStore_rows (s : Experiences) :
    (ExperienceRecord.toStore s.rows).kept = s.kept := by
  refine Std.ExtTreeMap.ext_getElem? fun k => ?_
  rw [getElem?_kept, entries_toStore_rows, getElem?_kept, Option.filter_filter]
  simp

theorem peek_toStore_rows (s : Experiences) (o p : Peer) :
    (ExperienceRecord.toStore s.rows).peek o p =
      if (s.peek o p).used then s.peek o p else .none := by
  rw [← getD_kept, ← entries_toStore_rows]
  rfl

end Experiences

end Reputation
