import Reputation.Proofs.Experience.History
import Reputation.Proofs.Records

/-! # Stores that grow

Whoever asks for an experience leaves an empty one in the store where there was none, and has the two
peers remembered. `Experiences.Grows` tells a store that such questions have gone through: the same
answers, some more pairs, no peer forgotten. Questions may follow each other (`Grows.trans`,
`Grows.foldl`).

The listing of the interactions and the rows that are saved do not show that a store grew
(`Grows.interactions_eq`, `Grows.ofStore_eq`). This needs the peers of the stored pairs to be
remembered before: a new instance of one of them would come up in the listing. A store to which
operations lead is `Acquainted` with them (`Arises.acquainted`). -/

namespace Reputation

namespace Experiences

variable {s s' s'' : Experiences} {new new' : Pair → Prop}

/-! ### Acquaintance -/

/-- **The peers of every stored pair are remembered.** -/
def Acquainted (s : Experiences) : Prop :=
  ∀ k ∈ s.entries, k.observer ∈ s.known ∧ k.partner ∈ s.known

theorem mem_known_remember (s : Experiences) (p : Peer) (id : String) :
    id ∈ (s.remember p).known ↔ p.id = id ∨ id ∈ s.known := by
  unfold remember
  rw [Std.ExtTreeMap.mem_insertIfNew, Std.LawfulEqCmp.compare_eq_iff_eq]

theorem mem_known_put (s : Experiences) (o p : Peer) (e : Experience) (id : String) :
    id ∈ (s.put o p e).known ↔ p.id = id ∨ o.id = id ∨ id ∈ s.known := by
  unfold put
  rw [mem_known_remember, mem_known_remember]

theorem mem_entries_put (s : Experiences) (o p : Peer) (e : Experience) (k : Pair) :
    k ∈ (s.put o p e).entries ↔ key o p = k ∨ k ∈ s.entries := by
  unfold put remember
  rw [Std.ExtTreeMap.mem_insert, Std.LawfulEqCmp.compare_eq_iff_eq]

/-- Asking for an experience stores the one that is answered. -/
theorem mem_entries_touch (s : Experiences) (o p : Peer) (k : Pair) :
    k ∈ (s.touch o p).entries ↔ key o p = k ∨ k ∈ s.entries := by
  unfold touch remember
  rw [Std.ExtTreeMap.mem_insertIfNew, Std.LawfulEqCmp.compare_eq_iff_eq]

theorem acquainted_new (retention : UInt64) : Acquainted ⟨retention, ∅, ∅⟩ :=
  fun _ hk => absurd hk Std.ExtTreeMap.not_mem_empty

theorem Acquainted.put (h : s.Acquainted) (o p : Peer) (e : Experience) :
    (s.put o p e).Acquainted := by
  intro k hk
  rw [mem_known_put, mem_known_put]
  rcases (mem_entries_put s o p e k).mp hk with rfl | hk
  · exact ⟨.inr (.inl rfl), .inl rfl⟩
  · exact ⟨.inr (.inr (h k hk).1), .inr (.inr (h k hk).2)⟩

theorem Acquainted.touch (h : s.Acquainted) (o p : Peer) : (s.touch o p).Acquainted := by
  intro k hk
  unfold Experiences.touch
  rw [mem_known_remember, mem_known_remember, mem_known_remember, mem_known_remember]
  rcases (mem_entries_touch s o p k).mp hk with rfl | hk
  · exact ⟨.inr (.inl rfl), .inl rfl⟩
  · exact ⟨.inr (.inr (h k hk).1), .inr (.inr (h k hk).2)⟩

theorem Acquainted.prune (h : s.Acquainted) (t : Instant) : (s.prune t).Acquainted :=
  fun k hk => h k (Std.ExtTreeMap.mem_of_mem_filter hk)

theorem Acquainted.report (h : s.Acquainted) (o : Peer) (es : List (Peer × Experience))
    (t : Instant) : (s.report o es t).Acquainted := by
  unfold Experiences.report
  induction es generalizing s with
  | nil => exact h
  | cons x es ih => exact ih (h.put o x.1 _)

theorem Acquainted.perform {K : Type} [Number K] (h : s.Acquainted) {op : Operation}
    (hs : s.perform K op = .ok s') : s'.Acquainted := by
  cases op with
  | experience o p => cases hs; exact h.touch o p
  | peek o p => cases hs; exact h
  | modify o p f => cases hs; exact h.put o p _
  | put o p e => cases hs; exact h.put o p e
  | record o p outcome t =>
    rcases record_cases (mapError_eq_ok.mp hs) with ⟨-, rfl⟩ | ⟨-, e, -, rfl⟩
    · exact h
    · exact h.put o p e
  | report o es t => cases hs; exact h.report o es t
  | snapshot peers => cases hs; exact h
  | shared home peers =>
    have hm : (s.shared (K := K) home peers).map (fun _ => s) = .ok s' := hs
    cases hshared : s.shared (K := K) home peers with
    | error f => rw [hshared] at hm; cases hm
    | ok m => rw [hshared] at hm; cases hm; exact h
  | prune t => cases hs; exact h.prune t

theorem Acquainted.run {K : Type} [Number K] (h : s.Acquainted) {ops : List Operation}
    (hs : s.run K ops = .ok s') : s'.Acquainted := by
  unfold Experiences.run at hs
  induction ops generalizing s with
  | nil => cases hs; exact h
  | cons op ops ih =>
    rw [List.foldlM_cons] at hs
    obtain ⟨s₁, h₁, hs⟩ := bind_eq_ok hs
    exact ih (h.perform h₁) hs

/-- **The stores there are**: those to which operations lead from a new one. -/
def Arises (K : Type) [Number K] (s : Experiences) : Prop :=
  ∃ hours start ops, withRetention hours = .ok start ∧ start.run K ops = .ok s

theorem exists_eq_of_withRetention_eq_ok {hours : UInt64} (h : withRetention hours = .ok s) :
    ∃ retention, s = ⟨retention, ∅, ∅⟩ := by
  unfold withRetention at h
  split at h
  · cases h; exact ⟨_, rfl⟩
  · cases h

theorem Arises.acquainted {K : Type} [Number K] (h : s.Arises K) : s.Acquainted := by
  obtain ⟨hours, start, ops, hstart, hrun⟩ := h
  obtain ⟨retention, rfl⟩ := exists_eq_of_withRetention_eq_ok hstart
  exact (acquainted_new retention).run hrun

/-! ### Growth -/

/-- **A store that grew** from another one by empty experiences of some pairs. -/
structure Grows (s s' : Experiences) (new : Pair → Prop) : Prop where
  peek_eq : s'.peek = s.peek
  mem_iff : ∀ k, k ∈ s'.entries ↔ k ∈ s.entries ∨ new k
  known : ∀ (id : String) (p : Peer), s.known[id]? = some p → s'.known[id]? = some p
  /-- Without a question nothing changes, the remembered peers included. -/
  eq_self : (∀ k, ¬ new k) → s' = s

theorem Grows.refl (s : Experiences) : s.Grows s fun _ => False :=
  ⟨rfl, fun k => by rw [or_false], fun _ _ h => h, fun _ => rfl⟩

theorem Grows.trans (h : s.Grows s' new) (h' : s'.Grows s'' new') :
    s.Grows s'' fun k => new k ∨ new' k := by
  refine ⟨h'.peek_eq.trans h.peek_eq, fun k => ?_, fun id p hp => h'.known id p (h.known id p hp),
    fun hnone => ?_⟩
  · rw [h'.mem_iff, h.mem_iff, or_assoc]
  · exact (h'.eq_self fun k hk => hnone k (.inr hk)).trans
      (h.eq_self fun k hk => hnone k (.inl hk))

theorem Grows.congr (h : s.Grows s' new) (hn : ∀ k, new k ↔ new' k) : s.Grows s' new' :=
  ⟨h.peek_eq, fun k => by rw [h.mem_iff, hn], h.known,
    fun hnone => h.eq_self fun k hk => hnone k ((hn k).mp hk)⟩

theorem getElem?_known_remember_of_some {id : String} {q : Peer} (h : s.known[id]? = some q)
    (p : Peer) : (s.remember p).known[id]? = some q := by
  have hm : id ∈ s.known := by rw [Std.ExtTreeMap.mem_iff_isSome_getElem?, h]; rfl
  unfold remember
  rw [Std.ExtTreeMap.getElem?_insertIfNew, if_neg, h]
  rintro ⟨hp, hnot⟩
  rw [Std.LawfulEqCmp.compare_eq_iff_eq] at hp
  rw [hp] at hnot
  exact hnot hm

theorem grows_touch (s : Experiences) (o p : Peer) : s.Grows (s.touch o p) fun k => k = key o p where
  peek_eq := peek_touch s o p
  mem_iff k := by rw [mem_entries_touch, or_comm, eq_comm]
  known _ _ h := getElem?_known_remember_of_some (getElem?_known_remember_of_some h o) p
  eq_self hnone := absurd rfl (hnone (key o p))

/-- **Questions one after the other** let the store grow by the pairs of each. -/
theorem Grows.foldl {α : Type} {f : Experiences → α → Experiences} {news : α → Pair → Prop}
    (h : ∀ (s : Experiences) x, s.Grows (f s x) (news x)) (s : Experiences) (xs : List α) :
    s.Grows (xs.foldl f s) fun k => ∃ x ∈ xs, news x k := by
  induction xs generalizing s with
  | nil => exact (Grows.refl s).congr fun k => by simp
  | cons x xs ih => exact ((h s x).trans (ih (f s x))).congr fun k => by simp

/-- The new pairs have an empty experience. -/
theorem Grows.getElem?_entries (h : s.Grows s' new) {k : Pair} (hk : new k) (hn : k ∉ s.entries) :
    s'.entries[k]? = some .none := by
  have hs : s'.Stored (.named k.observer) (.named k.partner) := (h.mem_iff k).mpr (.inr hk)
  have hpeek : s.peek (.named k.observer) (.named k.partner) = .none := by
    change (s.entries[k]?).getD .none = .none
    rw [Std.ExtTreeMap.getElem?_eq_none hn]
    rfl
  rw [← hpeek, ← h.peek_eq]
  exact stored_iff.mp hs

/-! ### What does not show -/

theorem getElem?_kept_key (s : Experiences) (o p : Peer) :
    s.kept[key o p]? = if (s.peek o p).used then some (s.peek o p) else none := by
  rw [getElem?_kept]
  unfold peek
  cases s.entries[key o p]? with
  | none => rfl
  | some e => rfl

/-- What is kept of a store is a matter of its answers. -/
theorem kept_congr (h : s'.peek = s.peek) : s'.kept = s.kept := by
  refine Std.ExtTreeMap.ext_getElem? fun k => ?_
  have hk := s.getElem?_kept_key (.named k.observer) (.named k.partner)
  have hk' := s'.getElem?_kept_key (.named k.observer) (.named k.partner)
  rw [h] at hk'
  exact hk'.trans hk.symm

theorem interactions_eq_kept (hf : ∀ o p, (s.peek o p).Fits) :
    s.interactions = .ok (s.kept.toList.map fun x =>
      (s.peerOf x.1.observer, s.peerOf x.1.partner, x.2)) := by
  rw [interactions_eq hf]
  unfold kept
  rw [Std.ExtTreeMap.toList_filter]

theorem Grows.peerOf_eq (h : s.Grows s' new) {id : String} (hid : id ∈ s.known) :
    s'.peerOf id = s.peerOf id := by
  obtain ⟨p, hp⟩ : ∃ p, s.known[id]? = some p :=
    ⟨_, Std.ExtTreeMap.getElem?_eq_some_getElem hid⟩
  unfold peerOf
  rw [h.known id p hp, hp]

theorem mem_entries_of_mem_kept {x : Pair × Experience} (h : x ∈ s.kept.toList) :
    x.1 ∈ s.entries := by
  unfold kept at h
  rw [Std.ExtTreeMap.toList_filter] at h
  have hx := Std.ExtTreeMap.mem_toList_iff_getElem?_eq_some.mp (List.mem_filter.mp h).1
  rw [Std.ExtTreeMap.mem_iff_isSome_getElem?, hx]
  rfl

/-- **The listing of the interactions stays**, endpoints included. -/
theorem Grows.interactions_eq (h : s.Grows s' new) (ha : s.Acquainted)
    (hf : ∀ o p, (s.peek o p).Fits) : s'.interactions = s.interactions := by
  have hf' : ∀ o p, (s'.peek o p).Fits := by rw [h.peek_eq]; exact hf
  rw [interactions_eq_kept hf', interactions_eq_kept hf, kept_congr h.peek_eq]
  refine congrArg Except.ok (List.map_congr_left fun x hx => ?_)
  obtain ⟨ho, hp⟩ := ha x.1 (mem_entries_of_mem_kept hx)
  rw [h.peerOf_eq ho, h.peerOf_eq hp]

/-- **The rows that are saved stay.** -/
theorem Grows.ofStore_eq (h : s.Grows s' new) (ha : s.Acquainted)
    (hf : ∀ o p, (s.peek o p).Fits) : ExperienceRecord.ofStore s' = ExperienceRecord.ofStore s := by
  unfold ExperienceRecord.ofStore
  rw [h.interactions_eq ha hf]

/-- **What was experienced is conserved**: every answer, the listing of the interactions and the rows
that are saved. Some more pairs are stored, with empty experiences; without any, the store is the
same. -/
structure Conserves (s s' : Experiences) (new : Pair → Prop) : Prop where
  peek_eq : ∀ o p, s'.peek o p = s.peek o p
  interactions_eq : s'.interactions = s.interactions
  ofStore_eq : ExperienceRecord.ofStore s' = ExperienceRecord.ofStore s
  mem_iff : ∀ k, k ∈ s'.entries ↔ k ∈ s.entries ∨ new k
  empty : ∀ k, new k → k ∉ s.entries → s'.entries[k]? = some .none
  eq_self : (∀ k, ¬ new k) → s' = s

theorem Grows.conserves (h : s.Grows s' new) (ha : s.Acquainted)
    (hf : ∀ o p, (s.peek o p).Fits) : s.Conserves s' new where
  peek_eq o p := by rw [h.peek_eq]
  interactions_eq := h.interactions_eq ha hf
  ofStore_eq := h.ofStore_eq ha hf
  mem_iff := h.mem_iff
  empty _ hk hn := h.getElem?_entries hk hn
  eq_self := h.eq_self

end Experiences

end Reputation
