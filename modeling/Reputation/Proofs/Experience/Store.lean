import Mathlib.Data.Nat.Notation
import Mathlib.Tactic.Tauto
import Reputation.Experience.Store
import Reputation.Proofs.Peer

/-! # Reading the store of experiences

What the store answers depends on `Experiences.peek` alone. Asking for an experience keeps every
answer (`peek_touch`). An experience `Fits` if the number of its calls is a 64-bit count; then
`Experience.isUsed` answers, and tells whether there was a call. Recording passes an interaction over
or counts one call of one pair (`record_cases`, `Experience.record_spec`). -/

namespace Reputation

theorem Instant.toNat_since (t earlier : Instant) :
    (t.since earlier).toNat = t.seconds.toNat - earlier.seconds.toNat := by
  have ht : t.seconds.toNat < UInt64.size := t.seconds.toNat_lt
  unfold Instant.since
  exact UInt64.toNat_ofNat_of_lt' (Nat.lt_of_le_of_lt (Nat.sub_le _ _) ht)

/-- Differences that stop at zero are compared like sums without a bound. -/
theorem Instant.since_le_iff (t earlier : Instant) (n : UInt64) :
    t.since earlier ≤ n ↔ ¬ earlier.seconds.toNat + n.toNat < t.seconds.toNat := by
  rw [UInt64.le_iff_toNat_le, Instant.toNat_since]
  omega

theorem addCounts_eq_ok {a b : UInt64} (h : a.toNat + b.toNat < UInt64.size) :
    addCounts a b = .ok (a + b) := if_pos h

theorem toNat_of_addCounts_eq_ok {a b c : UInt64} (h : addCounts a b = .ok c) :
    c.toNat = a.toNat + b.toNat := by
  unfold addCounts at h
  split at h
  · next hlt =>
    cases h
    rw [UInt64.toNat_add, Nat.mod_eq_of_lt hlt]
  · cases h

namespace Experience

/-- The number of calls of either outcome is a 64-bit count. -/
def Fits (e : Experience) : Prop := e.successes.toNat + e.failures.toNat < UInt64.size

instance (e : Experience) : Decidable e.Fits := inferInstanceAs (Decidable (_ < _))

/-- Was there a call? -/
def used (e : Experience) : Bool := decide (0 < e.successes.toNat + e.failures.toNat)

theorem isUsed_of_fits {e : Experience} (h : e.Fits) : e.isUsed = .ok e.used := by
  have hc : e.calls = .ok (e.successes + e.failures) := addCounts_eq_ok h
  have hn : (e.successes + e.failures).toNat = e.successes.toNat + e.failures.toNat :=
    toNat_of_addCounts_eq_ok hc
  unfold isUsed
  rw [hc]
  simp only [Except.map, used, UInt64.lt_iff_toNat_lt, hn]
  rfl

theorem isUsed_of_not_fits {e : Experience} (h : ¬ e.Fits) :
    e.isUsed = .error .counterOverflow := by
  unfold isUsed calls addCounts
  unfold Fits at h
  rw [if_neg h]
  rfl

theorem only_isUsed (e : Experience) : Only .counterOverflow e.isUsed := by
  by_cases h : e.Fits
  · exact Or.inl ⟨_, isUsed_of_fits h⟩
  · exact Or.inr (isUsed_of_not_fits h)

theorem exists_isUsed_iff {e : Experience} : (∃ b, e.isUsed = .ok b) ↔ e.Fits := by
  constructor
  · rintro ⟨b, hb⟩
    by_contra h
    rw [isUsed_of_not_fits h] at hb
    cases hb
  · exact fun h => ⟨_, isUsed_of_fits h⟩

/-- What a record counts, in natural numbers, and when. -/
theorem record_spec {e e' : Experience} {outcome : Outcome} {t : Instant}
    (h : e.record outcome t = .ok e') :
    e'.successes.toNat = e.successes.toNat + (if outcome = .success then 1 else 0) ∧
      e'.failures.toNat = e.failures.toNat + (if outcome = .failure then 1 else 0) ∧
      e'.updated = t := by
  cases outcome with
  | neutral =>
    cases h
    exact ⟨rfl, rfl, rfl⟩
  | success =>
    obtain ⟨n, hc, h⟩ := bind_eq_ok h
    cases h
    exact ⟨toNat_of_addCounts_eq_ok hc, rfl, rfl⟩
  | failure =>
    obtain ⟨n, hc, h⟩ := bind_eq_ok h
    cases h
    exact ⟨rfl, toNat_of_addCounts_eq_ok hc, rfl⟩

/-- **A call is recorded** if there is room for one more of its outcome. -/
theorem exists_record {e : Experience} {outcome : Outcome} (t : Instant)
    (hs : outcome = .success → e.successes.toNat + 1 < UInt64.size)
    (hf : outcome = .failure → e.failures.toNat + 1 < UInt64.size) :
    ∃ e', e.record outcome t = .ok e' := by
  cases outcome with
  | neutral => exact ⟨_, rfl⟩
  | success =>
    have hadd : addCounts e.successes 1 = .ok (e.successes + 1) := addCounts_eq_ok (hs rfl)
    exact ⟨_, by unfold record; rw [hadd]; rfl⟩
  | failure =>
    have hadd : addCounts e.failures 1 = .ok (e.failures + 1) := addCounts_eq_ok (hf rfl)
    exact ⟨_, by unfold record; rw [hadd]; rfl⟩

end Experience

namespace Experiences

/-- **Third parties can be counted**: of any three of the peers, the calls of the first with the
third are a 64-bit count. -/
def Countable (s : Experiences) (peers : List Peer) : Prop :=
  ∀ p ∈ peers, ∀ q ∈ peers, ∀ r ∈ peers, p.id ≠ q.id → r.id ≠ p.id → r.id ≠ q.id →
    (s.peek p r).Fits

@[simp] theorem peek_empty (p q : Peer) : empty.peek p q = .none := by
  unfold peek empty
  rw [Std.ExtTreeMap.getElem?_empty]
  rfl

/-- A stored experience is read by its observer and partner alone. -/
theorem peek_put (s : Experiences) (o r p q : Peer) (e : Experience) :
    (s.put o r e).peek p q = if o.id = p.id ∧ r.id = q.id then e else s.peek p q := by
  unfold peek put remember key
  simp only [Std.ExtTreeMap.getElem?_insert, Std.LawfulEqCmp.compare_eq_iff_eq, Pair.mk.injEq]
  split <;> rfl

theorem fits_empty (p q : Peer) : (empty.peek p q).Fits := by
  rw [peek_empty]; decide

theorem fits_put {s : Experiences} (h : ∀ p q, (s.peek p q).Fits) {e : Experience} (he : e.Fits)
    (o r p q : Peer) : ((s.put o r e).peek p q).Fits := by
  rw [peek_put]
  split
  · exact he
  · exact h p q

theorem countable_of_fits {s : Experiences} (h : ∀ p q, (s.peek p q).Fits) (peers : List Peer) :
    s.Countable peers := fun p _ _ _ r _ _ _ _ => h p r

theorem peek_congr (s : Experiences) {p p' q q' : Peer} (hp : p.id = p'.id) (hq : q.id = q'.id) :
    s.peek p q = s.peek p' q' := by
  unfold peek key; rw [hp, hq]

theorem getElem?_entries_put (s : Experiences) (o p : Peer) (e : Experience) (k : Pair) :
    (s.put o p e).entries[k]? = if key o p = k then some e else s.entries[k]? := by
  unfold put remember
  simp only [Std.ExtTreeMap.getElem?_insert, Std.LawfulEqCmp.compare_eq_iff_eq]

theorem getElem?_entries_touch (s : Experiences) (o p : Peer) (k : Pair) :
    (s.touch o p).entries[k]? = if key o p = k then some (s.peek o p) else s.entries[k]? := by
  unfold touch remember peek
  simp only [Std.ExtTreeMap.getElem?_insertIfNew, Std.LawfulEqCmp.compare_eq_iff_eq]
  by_cases hk : key o p = k
  · subst hk
    by_cases hm : key o p ∈ s.entries
    · rw [if_neg fun h => h.2 hm, if_pos rfl, Std.ExtTreeMap.getElem?_eq_some_getElem hm]
      rfl
    · rw [if_pos ⟨rfl, hm⟩, if_pos rfl, Std.ExtTreeMap.getElem?_eq_none hm]
      rfl
  · rw [if_neg fun h => hk h.1, if_neg hk]

theorem getElem?_entries_prune (s : Experiences) (t : Instant) (k : Pair) :
    (s.prune t).entries[k]? =
      s.entries[k]?.filter fun e => decide (t.since e.updated ≤ s.retention) :=
  Std.ExtTreeMap.getElem?_filter'

/-- **Asking for an experience changes no answer.** -/
theorem peek_touch (s : Experiences) (p q : Peer) : (s.touch p q).peek = s.peek := by
  funext o r
  unfold peek touch remember
  simp only [Std.ExtTreeMap.getElem?_insertIfNew, Std.LawfulEqCmp.compare_eq_iff_eq]
  split
  · next h =>
    rw [← h.1, Std.ExtTreeMap.getElem?_eq_none h.2]
    rfl
  · rfl

theorem countable_congr {s s' : Experiences} (h : s'.peek = s.peek) (peers : List Peer) :
    s'.Countable peers ↔ s.Countable peers := by
  unfold Countable; rw [h]

/-! ### Recording -/

section Record
variable {s s' : Experiences} {o p : Peer} {outcome : Outcome} {t : Instant}

theorem record_of_not_call (s : Experiences) (t : Instant)
    (h : ¬ (o.id ≠ p.id ∧ outcome ≠ .neutral)) : s.record o p outcome t = .ok s := by
  refine if_pos (Bool.or_eq_true_iff.mpr ?_)
  rw [Peer.same_iff, beq_iff_eq]
  tauto

theorem record_of_call (s : Experiences) (t : Instant) (h : o.id ≠ p.id ∧ outcome ≠ .neutral) :
    s.record o p outcome t = ((s.peek o p).record outcome t).map (s.put o p) := by
  have hn : ¬ (o.same p || outcome == .neutral) = true := by
    rw [Bool.or_eq_true_iff, Peer.same_iff, beq_iff_eq, not_or]
    exact h
  unfold record
  rw [if_neg hn]
  cases (s.peek o p).record outcome t <;> rfl

/-- **What recording does**: nothing, if the outcome is neutral or the peer speaks of itself, and
else it stores the experience of this pair. -/
theorem record_cases (h : s.record o p outcome t = .ok s') :
    (¬ (o.id ≠ p.id ∧ outcome ≠ .neutral) ∧ s' = s) ∨
      ((o.id ≠ p.id ∧ outcome ≠ .neutral) ∧
        ∃ e, (s.peek o p).record outcome t = .ok e ∧ s' = s.put o p e) := by
  by_cases hcall : o.id ≠ p.id ∧ outcome ≠ .neutral
  · rw [record_of_call s t hcall] at h
    cases he : (s.peek o p).record outcome t with
    | error f => rw [he] at h; cases h
    | ok e =>
      rw [he] at h
      cases h
      exact .inr ⟨hcall, e, rfl, rfl⟩
  · rw [record_of_not_call s t hcall] at h
    cases h
    exact .inl ⟨hcall, rfl⟩

end Record

end Experiences

end Reputation
