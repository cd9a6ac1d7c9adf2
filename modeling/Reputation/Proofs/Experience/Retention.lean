import Reputation.Proofs.Experience.Listing

/-! # Pruning

An experience `Expires` at a time if its last update and the retention, added up without any bound,
lie before it. Pruning drops the expired experiences and nothing else (`Experiences.drops_prune`):
the others keep their counters and times, and every peer stays remembered as it was, so the listing
of an observer loses the expired experiences and no more (`Experiences.ofObserver_prune`). Since what
has expired at one time has expired at every later one, prunings one after the other leave what a
single one at the latest of their times leaves, in whatever order the times come
(`Experiences.foldl_prune`). -/

namespace Reputation

namespace Instant

/-- The later of two instants. -/
def later (t u : Instant) : Instant := if t.seconds ≤ u.seconds then u else t

theorem toNat_later (t u : Instant) :
    (t.later u).seconds.toNat = max t.seconds.toNat u.seconds.toNat := by
  unfold later
  split
  · next h =>
    rw [UInt64.le_iff_toNat_le] at h
    omega
  · next h =>
    rw [UInt64.le_iff_toNat_le] at h
    omega

theorem later_comm (t u : Instant) : t.later u = u.later t := by
  have h : (t.later u).seconds = (u.later t).seconds := by
    rw [← UInt64.toNat_inj, toNat_later, toNat_later, Nat.max_comm]
  exact congrArg Instant.mk h

end Instant

namespace Experiences

variable {s s' s'' : Experiences} {t u : Instant} {e : Experience}

/-- **An experience expires**: its last update and the retention, added up without any bound, lie
before the time. -/
def Expires (s : Experiences) (t : Instant) (e : Experience) : Prop :=
  e.updated.seconds.toNat + s.retention.toNat < t.seconds.toNat

instance (s : Experiences) (t : Instant) (e : Experience) : Decidable (s.Expires t e) :=
  inferInstanceAs (Decidable (_ < _))

theorem since_le_iff (s : Experiences) (t : Instant) (e : Experience) :
    t.since e.updated ≤ s.retention ↔ ¬ s.Expires t e :=
  Instant.since_le_iff t e.updated s.retention

theorem not_expires_of_le_retention (e : Experience)
    (h : t.seconds.toNat ≤ s.retention.toNat) : ¬ s.Expires t e := by
  unfold Expires
  omega

theorem not_expires_of_le_updated (s : Experiences)
    (h : t.seconds.toNat ≤ e.updated.seconds.toNat) : ¬ s.Expires t e := by
  unfold Expires
  omega

/-- What has expired at one of two times has expired at the later one. -/
theorem expires_later : s.Expires (t.later u) e ↔ s.Expires t e ∨ s.Expires u e := by
  unfold Expires
  rw [Instant.toNat_later]
  omega

/-! ### One pruning -/

/-- **What is dropped from a store**: experiences that are gone, and nothing else of it. -/
structure Drops (s s' : Experiences) (gone : Experience → Prop) : Prop where
  entry_iff : ∀ (k : Pair) (e : Experience),
    s'.entries[k]? = some e ↔ s.entries[k]? = some e ∧ ¬ gone e
  known_eq : s'.known = s.known
  retention_eq : s'.retention = s.retention

/-- **Pruning drops what has expired**, and nothing else. -/
theorem drops_prune (s : Experiences) (t : Instant) : s.Drops (s.prune t) (s.Expires t) where
  entry_iff k e := by
    rw [getElem?_entries_prune, Option.filter_eq_some_iff, decide_eq_true_iff, since_le_iff]
  known_eq := rfl
  retention_eq := rfl

/-- Stores that dropped the same of one store are equal. -/
theorem Drops.unique {gone : Experience → Prop} (h : s.Drops s' gone) (h' : s.Drops s'' gone) :
    s' = s'' := by
  obtain ⟨r', m', k'⟩ := s'
  obtain ⟨r'', m'', k''⟩ := s''
  have hm : m' = m'' := Std.ExtTreeMap.ext_getElem? fun k => Option.ext fun e =>
    (h.entry_iff k e).trans (h'.entry_iff k e).symm
  have hk : k' = k'' := h.known_eq.trans h'.known_eq.symm
  have hr : r' = r'' := h.retention_eq.trans h'.retention_eq.symm
  rw [hm, hk, hr]

theorem Drops.refl (s : Experiences) : s.Drops s fun _ => False :=
  ⟨fun _ _ => by simp, rfl, rfl⟩

theorem Drops.congr {gone gone' : Experience → Prop} (h : s.Drops s' gone)
    (hg : ∀ e, gone e ↔ gone' e) : s.Drops s' gone' :=
  ⟨fun k e => by rw [h.entry_iff, hg], h.known_eq, h.retention_eq⟩

/-- What is dropped first and what is dropped then. -/
theorem Drops.trans {gone gone' : Experience → Prop} (h : s.Drops s' gone)
    (h' : s'.Drops s'' gone') : s.Drops s'' fun e => gone e ∨ gone' e := by
  refine ⟨fun k e => ?_, h'.known_eq.trans h.known_eq, h'.retention_eq.trans h.retention_eq⟩
  rw [h'.entry_iff, h.entry_iff, not_or, and_assoc]

theorem prune_eq_self (h : ∀ e, ¬ s.Expires t e) : s.prune t = s :=
  ((s.drops_prune t).congr fun e => iff_false_intro (h e)).unique (Drops.refl s)

/-- **The listing of an observer** loses what has expired, and nothing else. -/
theorem ofObserver_prune (s : Experiences) (t : Instant) (o : Peer) :
    (s.prune t).ofObserver o = (s.ofObserver o).filter fun x => ¬ s.Expires t x.2 := by
  unfold ofObserver prune
  rw [Std.ExtTreeMap.toList_filter, List.filter_map, List.filter_filter, List.filter_filter]
  refine congrArg (List.map _) (List.filter_congr fun x _ => ?_)
  simp only [Function.comp_apply, since_le_iff, decide_not, Bool.and_comm]

/-! ### Prunings one after the other -/

/-- **Two prunings** are one at the later of their times. -/
theorem prune_prune (s : Experiences) (t u : Instant) :
    (s.prune t).prune u = s.prune (t.later u) := by
  have htwice : s.Drops ((s.prune t).prune u) fun e => s.Expires t e ∨ s.Expires u e :=
    (s.drops_prune t).trans ((s.prune t).drops_prune u)
  exact htwice.unique ((s.drops_prune (t.later u)).congr fun e => expires_later)

/-- **A row of prunings** is one at the latest of their times. -/
theorem foldl_prune (s : Experiences) (t : Instant) (ts : List Instant) :
    ts.foldl prune (s.prune t) = s.prune (ts.foldl Instant.later t) := by
  induction ts generalizing t with
  | nil => rfl
  | cons u ts ih => rw [List.foldl_cons, List.foldl_cons, prune_prune, ih]

/-- **What pruning does to a store.** It drops the experiences whose last update and the retention,
added up without any bound, lie before the time, and keeps everything else: the other experiences as
they are, the peers as they are remembered, and so the rest of every listing. It drops nothing
within the retention after the first instant, and nothing that was updated later. Prunings at two
times leave the same store in either order, the one that is left at the later time; and so does a
whole row. -/
theorem prune_drops_expired (s : Experiences) :
    (∀ t : Instant, s.Drops (s.prune t) (fun e =>
        e.updated.seconds.toNat + s.retention.toNat < t.seconds.toNat) ∧
      (∀ o, (s.prune t).ofObserver o = (s.ofObserver o).filter fun x => ¬ s.Expires t x.2) ∧
      (t.seconds.toNat ≤ s.retention.toNat → s.prune t = s) ∧
      ∀ (k : Pair) (e : Experience), s.entries[k]? = some e →
        t.seconds.toNat ≤ e.updated.seconds.toNat → (s.prune t).entries[k]? = some e) ∧
    (∀ t u : Instant, (s.prune t).prune u = s.prune (t.later u) ∧
      (s.prune u).prune t = s.prune (t.later u) ∧
      (t.later u).seconds.toNat = max t.seconds.toNat u.seconds.toNat) ∧
    ∀ (t : Instant) (ts : List Instant),
      ts.foldl prune (s.prune t) = s.prune (ts.foldl Instant.later t) := by
  refine ⟨fun t => ⟨s.drops_prune t, s.ofObserver_prune t, fun h => ?_, fun k e hk he => ?_⟩,
    fun t u => ⟨s.prune_prune t u, ?_, Instant.toNat_later t u⟩, s.foldl_prune⟩
  · exact prune_eq_self fun e => not_expires_of_le_retention e h
  · exact ((s.drops_prune t).entry_iff k e).mpr ⟨hk, not_expires_of_le_updated s he⟩
  · rw [prune_prune, Instant.later_comm]

/-- An experience at the end of its retention, one second beyond it, and one of the future. -/
theorem prune_drops_expired_boundary :
    let s : Experiences := (((⟨3600, ∅, ∅⟩ : Experiences).put (.named "a") (.named "b")
      ⟨1, 0, ⟨100⟩⟩).put (.named "a") (.named "c") ⟨2, 0, ⟨101⟩⟩).put (.named "a") (.named "d")
      ⟨0, 3, ⟨18446744073709551615⟩⟩
    (s.prune ⟨3701⟩).ofObserver (.named "a") =
      [(.named "c", ⟨2, 0, ⟨101⟩⟩), (.named "d", ⟨0, 3, ⟨18446744073709551615⟩⟩)] ∧
    s.prune ⟨3600⟩ = s ∧ (s.prune ⟨3702⟩).prune ⟨3701⟩ = s.prune ⟨3702⟩ ∧
    (s.prune ⟨3701⟩).prune ⟨3702⟩ = s.prune ⟨3702⟩ := by
  intro s
  obtain ⟨hone, htwo, -⟩ := prune_drops_expired s
  obtain ⟨hfirst, hsecond, -⟩ := htwo ⟨3701⟩ ⟨3702⟩
  refine ⟨?_, (hone ⟨3600⟩).2.2.1 (by decide), hsecond, hfirst⟩
  rw [(hone ⟨3701⟩).2.1]
  decide +kernel

end Experiences

end Reputation
