import Reputation.Proofs.EigenTrust.Overflow
import Reputation.Proofs.Experience.History
import Reputation.Proofs.Records

/-! # Where counts of the store overflow

A count overflows in five places: the seconds of a retention, a call that is recorded, the calls of a
pair that is listed, those that are compared, and those that feedback is weighed by. Each of them
stops with the same fault, and there is no other (`Experiences.only_run`). Whether an operation stops
is told by the accounts of the pairs before it (`Operation.Clear`), so a run ends in a store if and
only if each of its operations is clear (`Experiences.Tracks.exists_run_iff`). What the store answers
then is told by the accounts after the run (`Experiences.Overflows`).

A counter that is overwritten may take any value, so none of these places is out of reach. -/

namespace Reputation

open Number

theorem only_addCounts (a b : UInt64) : Only .counterOverflow (addCounts a b) := by
  unfold addCounts
  split
  · exact Only.ok _
  · exact Or.inr rfl

namespace Experience

theorem only_record (e : Experience) (outcome : Outcome) (t : Instant) :
    Only .counterOverflow (e.record outcome t) := by
  cases outcome with
  | success => exact (only_addCounts _ _).bind fun _ _ => Only.ok _
  | failure => exact (only_addCounts _ _).bind fun _ _ => Only.ok _
  | neutral => exact Only.ok _

/-- **A call is recorded** if and only if there is room for one more of its outcome. -/
theorem exists_record_iff {e : Experience} {outcome : Outcome} {t : Instant} :
    (∃ e', e.record outcome t = .ok e') ↔
      (outcome = .success → e.successes.toNat + 1 < UInt64.size) ∧
      (outcome = .failure → e.failures.toNat + 1 < UInt64.size) := by
  constructor
  · rintro ⟨e', h⟩
    obtain ⟨hs, hf, -⟩ := record_spec h
    have hs' : e'.successes.toNat < UInt64.size := e'.successes.toNat_lt
    have hf' : e'.failures.toNat < UInt64.size := e'.failures.toNat_lt
    constructor
    · rintro rfl
      rw [hs, if_pos rfl] at hs'
      exact hs'
    · rintro rfl
      rw [hf, if_pos rfl] at hf'
      exact hf'
  · rintro ⟨hs, hf⟩
    exact exists_record t hs hf

end Experience

namespace Experiences

variable {s s' : Experiences}

/-! ### The places -/

theorem exists_withRetention_iff {hours : UInt64} :
    (∃ s, withRetention hours = .ok s) ↔ hours.toNat * 3600 < UInt64.size := by
  unfold withRetention
  constructor
  · rintro ⟨s, hs⟩
    by_contra h
    rw [if_neg h] at hs
    cases hs
  · exact fun h => ⟨_, if_pos h⟩

/-- A new store that there is keeps experiences for as long as was asked for. -/
theorem tracks_of_withRetention_eq_ok {hours : UInt64} (h : withRetention hours = .ok s) :
    s.Tracks (hours.toNat * 3600) fun _ => .empty := by
  have hlt : hours.toNat * 3600 < UInt64.size := exists_withRetention_iff.mp ⟨s, h⟩
  have hs : s = ⟨hours * 3600, ∅, ∅⟩ := by
    unfold withRetention at h
    rw [if_pos hlt] at h
    exact (Except.ok.inj h).symm
  have hn : (hours * 3600).toNat = hours.toNat * 3600 := by
    rw [UInt64.toNat_mul]
    exact Nat.mod_eq_of_lt hlt
  rw [hs, ← hn]
  exact tracks_new (hours * 3600)

theorem only_withRetention (hours : UInt64) : Only .counterOverflow (withRetention hours) := by
  unfold withRetention
  split
  · exact Only.ok _
  · exact Or.inr rfl

theorem only_record (s : Experiences) (o p : Peer) (outcome : Outcome) (t : Instant) :
    Only .counterOverflow (s.record o p outcome t) := by
  by_cases h : o.id ≠ p.id ∧ outcome ≠ .neutral
  · rw [record_of_call s t h]
    exact ((s.peek o p).only_record outcome t).map _
  · rw [record_of_not_call s t h]
    exact Only.ok s

theorem exists_record_iff {o p : Peer} {outcome : Outcome} {t : Instant} :
    (∃ s', s.record o p outcome t = .ok s') ↔ (o.id ≠ p.id ∧ outcome ≠ .neutral →
      ∃ e, (s.peek o p).record outcome t = .ok e) := by
  constructor
  · rintro ⟨s', hs⟩ hcall
    rcases record_cases hs with ⟨hn, -⟩ | ⟨-, e, he, -⟩
    · exact absurd hcall hn
    · exact ⟨e, he⟩
  · intro h
    by_cases hcall : o.id ≠ p.id ∧ outcome ≠ .neutral
    · obtain ⟨e, he⟩ := h hcall
      exact ⟨s.put o p e, by rw [record_of_call s t hcall, he]; rfl⟩
    · exact ⟨s, record_of_not_call s t hcall⟩

theorem only_interactions (s : Experiences) : Only .counterOverflow s.interactions :=
  (Only.filterM fun x _ => x.2.only_isUsed).bind fun _ _ => Only.ok _

theorem exists_interactions_iff :
    (∃ xs, s.interactions = .ok xs) ↔ ∀ o p, (s.peek o p).Fits :=
  ⟨fun ⟨_, h⟩ => fits_of_interactions h, fun h => ⟨_, interactions_eq h⟩⟩

theorem only_bothUsed (s : Experiences) (p q r : Peer) :
    Only .counterOverflow (s.bothUsed p q r) := by
  unfold bothUsed
  refine (s.peek p r).only_isUsed.bind fun used _ => ?_
  cases used with
  | true => exact (s.peek q r).only_isUsed
  | false => exact Only.ok false

theorem exists_bothUsed_iff {p q r : Peer} : (∃ b, s.bothUsed p q r = .ok b) ↔
    (s.peek p r).Fits ∧ ((s.peek p r).used = true → (s.peek q r).Fits) := by
  constructor
  · rintro ⟨b, hb⟩
    have hp : (s.peek p r).Fits := by
      obtain ⟨used, hu, -⟩ := bind_eq_ok hb
      exact Experience.exists_isUsed_iff.mp ⟨used, hu⟩
    refine ⟨hp, fun hused => ?_⟩
    unfold bothUsed at hb
    rw [Experience.isUsed_of_fits hp, hused] at hb
    exact Experience.exists_isUsed_iff.mp ⟨b, hb⟩
  · rintro ⟨hp, hq⟩
    exact ⟨_, bothUsed_eq_ok hp hq⟩

/-- **A listing stops** if and only if the calls of a pair are no 64-bit count. -/
theorem interactions_eq_error_iff {f : Fault} : s.interactions = .error f ↔
    f = .counterOverflow ∧ ∃ o p, UInt64.size ≤ (s.peek o p).total := by
  rw [s.only_interactions.eq_error_iff, exists_interactions_iff]
  simp only [Experience.fits_iff_total]
  push Not
  rfl

theorem ofStore_eq_error_iff {f : Fault} : ExperienceRecord.ofStore s = .error f ↔
    f = .counterOverflow ∧ ∃ o p, UInt64.size ≤ (s.peek o p).total := by
  rw [← interactions_eq_error_iff]
  unfold ExperienceRecord.ofStore
  cases s.interactions with
  | error e =>
    exact ⟨fun h => congrArg _ (Except.error.inj h), fun h => congrArg _ (Except.error.inj h)⟩
  | ok xs => exact iff_of_false (fun h => by cases h) fun h => by cases h

/-- **Interactions that are recorded and saved overflow** if and only if the calls of a pair are no
64-bit count afterwards. -/
theorem enact_overflows_iff {is : List Interaction} {f : Fault} :
    (s.enact is = .error f ∨
        ∃ s', s.enact is = .ok s' ∧ ExperienceRecord.ofStore s' = .error f) ↔
      f = .counterOverflow ∧
        ∃ p q, UInt64.size ≤ (s.peek p q).total + Interaction.calls is p q := by
  have honly : Only .counterOverflow (s.enact is) :=
    Only.foldlM (fun s i _ => s.only_record i.observer i.partner i.outcome i.time) s
  cases hs : s.enact is with
  | error e =>
    obtain ⟨rfl, -⟩ := honly.eq_error_iff.mp hs
    have hover : ∃ p q, UInt64.size ≤ (s.peek p q).total + Interaction.calls is p q := by
      by_contra hno
      push Not at hno
      obtain ⟨s', hs'⟩ := exists_enact hno
      rw [hs] at hs'
      cases hs'
    constructor
    · rintro (h | ⟨s', h, -⟩)
      · exact ⟨(Except.error.inj h).symm, hover⟩
      · cases h
    · exact fun h => .inl (by rw [h.1])
  | ok s' =>
    have htotal : ∀ p q, (s'.peek p q).total =
        (s.peek p q).total + Interaction.calls is p q := total_enact hs
    simp only [← htotal]
    rw [← ofStore_eq_error_iff]
    constructor
    · rintro (h | ⟨s'', h, hsave⟩)
      · cases h
      · cases h; exact hsave
    · exact fun h => .inr ⟨s', rfl, h⟩

/-! ### Shared experience -/

section Shared
variable (K : Type) [Number K] {home : Peer} {peers : List Peer}

theorem only_askCell (s : Experiences) (home : Peer) (x y : Peer × ℕ) :
    Only (.fault .counterOverflow) (s.askCell K home x y) := by
  unfold askCell
  split
  · exact Only.ok _
  · exact ((s.only_bothUsed home x.1 y.1).mapError Failure.fault).bind fun _ _ => Only.ok _

theorem only_askRow (s : Experiences) (home : Peer) (peers : List Peer) (x : Peer × ℕ) :
    Only (.fault .counterOverflow) (s.askRow K home peers x) :=
  (Only.mapM fun y _ => only_askCell K s home x y).map _

theorem exists_askCell_iff {x y : Peer × ℕ} : (∃ a, s.askCell K home x y = .ok a) ↔
    (x.1.id ≠ home.id → x.2 ≠ y.2 →
      (s.peek home y.1).Fits ∧ ((s.peek home y.1).used = true → (s.peek x.1 y.1).Fits)) := by
  rw [← exists_bothUsed_iff]
  unfold askCell
  by_cases h : (x.1.same home || x.2 == y.2) = true
  · rw [if_pos h]
    rw [Bool.or_eq_true_iff, Peer.same_iff, beq_iff_eq] at h
    exact iff_of_true ⟨_, rfl⟩ fun hhome hother => (h.elim hhome hother).elim
  · rw [if_neg h]
    rw [Bool.or_eq_true_iff, not_or, Peer.same_iff, beq_iff_eq] at h
    constructor
    · rintro ⟨a, ha⟩ _ _
      obtain ⟨b, hb, -⟩ := bind_eq_ok ha
      exact ⟨b, mapError_eq_ok.mp hb⟩
    · intro hb
      obtain ⟨b, hb⟩ := hb h.1 h.2
      exact ⟨_, by rw [hb]; rfl⟩

theorem exists_askRow_iff {x : Peer × ℕ} : (∃ v, s.askRow K home peers x = .ok v) ↔
    ∀ y ∈ peers.zipIdx, ∃ a, s.askCell K home x y = .ok a := by
  rw [← exists_mapM_eq_ok_iff]
  unfold askRow
  cases peers.zipIdx.mapM (s.askCell K home x) with
  | error f => exact iff_of_false (fun ⟨_, h⟩ => by cases h) fun ⟨_, h⟩ => by cases h
  | ok xs => exact iff_of_true ⟨_, rfl⟩ ⟨_, rfl⟩

theorem exists_rows_iff :
    (∃ rows, peers.zipIdx.mapM (s.askRow K home peers) = .ok rows) ↔ s.Comparable home peers := by
  rw [exists_mapM_eq_ok_iff]
  unfold Comparable
  simp only [exists_askRow_iff, exists_askCell_iff]

/-- **Shared experience is told** if and only if the calls can be compared. -/
theorem exists_shared_iff :
    (∃ m, s.shared (K := K) home peers = .ok m) ↔ s.Comparable home peers := by
  constructor
  · rintro ⟨m, hm⟩
    rw [shared_eq] at hm
    obtain ⟨rows, hrows, -⟩ := bind_eq_ok hm
    exact (exists_rows_iff K).mp ⟨rows, hrows⟩
  · intro h
    obtain ⟨m, hm, -⟩ := exists_shared K h
    exact ⟨m, hm⟩

theorem only_shared (s : Experiences) (home : Peer) (peers : List Peer) :
    Only (.fault .counterOverflow) (s.shared (K := K) home peers) := by
  by_cases h : s.Comparable home peers
  · exact Or.inl ((exists_shared_iff K).mpr h)
  · have hrows : peers.zipIdx.mapM (s.askRow K home peers) = .error (.fault .counterOverflow) :=
      (Only.mapM fun x _ => only_askRow K s home peers x).eq_error_iff.mpr
        ⟨rfl, fun hrows => h ((exists_rows_iff K).mp hrows)⟩
    rw [shared_eq, hrows]
    exact Or.inr rfl

end Shared

end Experiences

/-! ### Accounts -/

namespace Account

variable {a : Account} {e : Experience}

/-- Is there a call in the account? -/
def Used (a : Account) : Prop :=
  0 < a.base.successes.toNat + a.successes + (a.base.failures.toNat + a.failures)

theorem Tells.used_iff (h : a.Tells e) : e.used = true ↔ a.Used := by
  unfold Experience.used Used
  rw [decide_eq_true_eq, h.successes, h.failures]

end Account

/-- **No count overflows** in an operation on these accounts: there is room for the call that is
recorded, and what is compared can be counted. The second of two counts is asked for only if there is
a call in the first. -/
def Operation.Clear (A : Pair → Account) : Operation → Prop
  | .shared home peers => ∀ x ∈ peers.zipIdx, ∀ y ∈ peers.zipIdx, x.1.id ≠ home.id → x.2 ≠ y.2 →
    (A (Experiences.key home y.1)).Fits ∧
      ((A (Experiences.key home y.1)).Used → (A (Experiences.key x.1 y.1)).Fits)
  | op => op.Room A

namespace Experiences

variable {s s' : Experiences} {retention : ℕ} {A : Pair → Account}

/-! ### One operation -/

theorem only_perform (K : Type) [Number K] (s : Experiences) (op : Operation) :
    Only (.fault .counterOverflow) (s.perform K op) := by
  cases op with
  | record o p outcome t => exact (s.only_record o p outcome t).mapError Failure.fault
  | shared home peers => exact (only_shared K s home peers).map _
  | _ => exact Only.ok _

theorem Tracks.exists_record_iff (h : s.Tracks retention A) {o p : Peer} {outcome : Outcome}
    {t : Instant} : (∃ s', s.record o p outcome t = .ok s') ↔
      (Operation.record o p outcome t).Clear A := by
  have ht := h.tells o p
  rw [Experiences.exists_record_iff, Experience.exists_record_iff, ht.successes, ht.failures]
  cases outcome with
  | success => simp [Operation.Clear, Operation.Room]
  | failure => simp [Operation.Clear, Operation.Room]
  | neutral => simp [Operation.Clear, Operation.Room]

theorem Tracks.comparable_iff (h : s.Tracks retention A) {home : Peer} {peers : List Peer} :
    s.Comparable home peers ↔ (Operation.shared home peers).Clear A := by
  unfold Comparable Operation.Clear
  simp only [h.fits_iff, (h.tells _ _).used_iff]

/-- **An operation is carried out** if and only if it is clear. -/
theorem Tracks.exists_perform_iff (h : s.Tracks retention A) (K : Type) [Number K]
    {op : Operation} : (∃ s', s.perform K op = .ok s') ↔ op.Clear A := by
  cases op with
  | record o p outcome t =>
    rw [← h.exists_record_iff]
    exact exists_congr fun _ => mapError_eq_ok
  | shared home peers =>
    rw [← h.comparable_iff, ← exists_shared_iff K]
    change (∃ s', (s.shared (K := K) home peers).map (fun _ => s) = .ok s') ↔ _
    cases s.shared (K := K) home peers with
    | error f => exact iff_of_false (fun ⟨_, h⟩ => by cases h) fun ⟨_, h⟩ => by cases h
    | ok m => exact iff_of_true ⟨s, rfl⟩ ⟨m, rfl⟩
  | _ => exact iff_of_true ⟨_, rfl⟩ trivial

/-! ### A run -/

theorem only_run (K : Type) [Number K] (s : Experiences) (ops : List Operation) :
    Only (.fault .counterOverflow) (s.run K ops) :=
  Only.foldlM (fun s op _ => s.only_perform K op) s

/-- **A run ends in a store** if and only if each operation is clear after those before it. -/
theorem Tracks.exists_run_iff (h : s.Tracks retention A) (K : Type) [Number K]
    {ops : List Operation} : (∃ s', s.run K ops = .ok s') ↔
      ∀ before op rest, ops = before ++ op :: rest → op.Clear fun k =>
        (before.flatMap (Operation.events k)).foldl (Account.enter retention) (A k) := by
  unfold Experiences.run
  induction ops generalizing s A with
  | nil =>
    refine iff_of_true ⟨s, rfl⟩ fun before op rest hops => ?_
    simp at hops
  | cons op ops ih =>
    constructor
    · rintro ⟨s', hs⟩
      rw [List.foldlM_cons] at hs
      obtain ⟨s₁, h₁, hs⟩ := bind_eq_ok hs
      have hrest := (ih (h.perform h₁)).mp ⟨s', hs⟩
      intro before op' rest hops
      cases before with
      | nil =>
        obtain ⟨rfl, -⟩ := List.cons.inj hops
        exact (h.exists_perform_iff K).mp ⟨s₁, h₁⟩
      | cons b before =>
        obtain ⟨rfl, htail⟩ := List.cons.inj hops
        have hclear := hrest before op' rest htail
        simpa only [List.flatMap_cons, List.foldl_append] using hclear
    · intro hclear
      obtain ⟨s₁, h₁⟩ := (h.exists_perform_iff K).mpr (hclear [] op ops rfl)
      obtain ⟨s', hs'⟩ := (ih (h.perform h₁)).mpr fun before op' rest hops => by
        have hop' := hclear (op :: before) op' rest (by rw [hops]; rfl)
        simpa only [List.flatMap_cons, List.foldl_append] using hop'
      exact ⟨s', by rw [List.foldlM_cons, h₁]; exact hs'⟩

/-! ### Answers -/

/-- **Where the answers of a store overflow**, told by its accounts. -/
structure Overflows (K : Type) [Number K] (s : Experiences) (A : Pair → Account) : Prop where
  interactions : ∀ f, s.interactions = .error f ↔ f = .counterOverflow ∧ ∃ k, ¬ (A k).Fits
  ofStore : ∀ f, ExperienceRecord.ofStore s = .error f ↔ f = .counterOverflow ∧ ∃ k, ¬ (A k).Fits
  feedback : ∀ (c : Context) (o : Opinions K) (f : Failure),
    (Engine.ofAlgorithm .eigenTrustPlusPlus).updateFeedback c o s = .error f ↔
      f = .fault .counterOverflow ∧ ∃ p ∈ c.peers, ∃ q ∈ c.peers, ∃ r ∈ c.peers,
        p.id ≠ q.id ∧ r.id ≠ p.id ∧ r.id ≠ q.id ∧ ¬ (A (key p r)).Fits

/-- Feedback is weighed if and only if third parties can be counted. -/
theorem updateFeedback_eq_error_iff {K : Type} [Number K] {c : Context} {o : Opinions K}
    {f : Failure} : (Engine.ofAlgorithm .eigenTrustPlusPlus).updateFeedback c o s = .error f ↔
      f = .fault .counterOverflow ∧ ¬ s.Countable c.peers := by
  have heq : (Engine.ofAlgorithm .eigenTrustPlusPlus).updateFeedback c o s =
      Feedback.update .similarity c o.credibility s >>= fun t => .ok { o with credibility := t } := rfl
  rw [heq]
  by_cases hs : s.Countable c.peers
  · obtain ⟨t, ht, -⟩ := Feedback.update_spec hs o.credibility
    rw [ht]
    exact iff_of_false (fun h => by cases h) fun h => h.2 hs
  · rw [Feedback.update_eq_error hs]
    exact ⟨fun h => ⟨(Except.error.inj h).symm, hs⟩, fun h => congrArg _ h.1.symm⟩

theorem Tracks.exists_not_fits_iff (h : s.Tracks retention A) :
    (∃ o p, UInt64.size ≤ (s.peek o p).total) ↔ ∃ k, ¬ (A k).Fits := by
  have hpair : ∀ o p, UInt64.size ≤ (s.peek o p).total ↔ ¬ (A (key o p)).Fits := by
    intro o p
    rw [← h.fits_iff, Experience.fits_iff_total, Nat.not_lt]
  constructor
  · rintro ⟨o, p, hop⟩
    exact ⟨key o p, (hpair o p).mp hop⟩
  · rintro ⟨k, hk⟩
    exact ⟨.named k.observer, .named k.partner, (hpair _ _).mpr hk⟩

theorem Tracks.overflows (h : s.Tracks retention A) (K : Type) [Number K] : s.Overflows K A where
  interactions f := by rw [interactions_eq_error_iff, h.exists_not_fits_iff]
  ofStore f := by rw [ofStore_eq_error_iff, h.exists_not_fits_iff]
  feedback c o f := by
    rw [updateFeedback_eq_error_iff]
    unfold Countable
    simp only [h.fits_iff]
    push Not
    rfl

/-- **A run of the store overflows** where one of its operations is not clear after those before it,
and nowhere else; its answers do where an account does not fit. -/
theorem run_overflows (K : Type) [Number K] {hours : UInt64} {new : Experiences}
    (hnew : withRetention hours = .ok new) (ops : List Operation) :
    (∀ f, new.run K ops = .error f ↔ f = .fault .counterOverflow ∧
      ∃ before op rest, ops = before ++ op :: rest ∧
        ¬ op.Clear (Account.after (hours.toNat * 3600) before)) ∧
    ∀ s, new.run K ops = .ok s → s.Overflows K (Account.after (hours.toNat * 3600) ops) := by
  have hstart := tracks_of_withRetention_eq_ok hnew
  refine ⟨fun f => ?_, fun s hs => (hstart.run hs).overflows K⟩
  rw [(only_run K new ops).eq_error_iff, hstart.exists_run_iff K]
  push Not
  rfl

end Experiences

end Reputation
