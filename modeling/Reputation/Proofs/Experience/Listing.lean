import Reputation.Proofs.Experience.Store
import Reputation.Proofs.Failure
import Reputation.Proofs.Linear.Tabulated
import Reputation.Proofs.Peer

/-! # Listings of the store

A store that is `Named` remembers every identity as a peer of this identity, so a listing names the
pairs that are stored. The experiences of one observer are listed in ascending order of the partners
(`Experiences.lists_ofObserver`), those with a call in ascending order of observer and partner
(`Experiences.exists_interactions`), and each of them once, whatever the order in which they were
stored. The second listing needs the calls of every pair to be a 64-bit count, and nothing else
(`Experiences.fits_of_interactions`). So does the matrix of shared experience
(`Experiences.exists_shared`). -/

namespace Reputation

theorem Pair.compare_of_observer_eq {i j : Pair} (h : i.observer = j.observer) :
    compare i j = compare i.partner j.partner := by
  rw [Pair.compare_eq, h, Std.compare_self]
  rfl

namespace Experiences

variable {s : Experiences}

/-! ### Names -/

/-- Every identity is remembered as a peer of this identity. -/
def Named (s : Experiences) : Prop := ∀ (id : String) (p : Peer), s.known[id]? = some p → p.id = id

theorem named_new (retention : UInt64) : Named ⟨retention, ∅, ∅⟩ := by
  intro id p h
  rw [Std.ExtTreeMap.getElem?_empty] at h
  cases h

theorem Named.remember (h : s.Named) (p : Peer) : (s.remember p).Named := by
  intro id q hq
  unfold Experiences.remember at hq
  rw [Std.ExtTreeMap.getElem?_insertIfNew] at hq
  split at hq
  · next hp =>
    cases hq
    exact Std.LawfulEqCmp.compare_eq_iff_eq.mp hp.1
  · exact h id q hq

theorem Named.put (h : s.Named) (o p : Peer) (e : Experience) : (s.put o p e).Named :=
  (h.remember o).remember p

theorem Named.touch (h : s.Named) (o p : Peer) : (s.touch o p).Named := (h.remember o).remember p

theorem Named.id_peerOf (h : s.Named) (id : String) : (s.peerOf id).id = id := by
  unfold peerOf
  cases hp : s.known[id]? with
  | none => rfl
  | some p => exact h id p hp

/-! ### What is stored -/

/-- Is there an experience of the pair in the store? -/
def Stored (s : Experiences) (o p : Peer) : Prop := key o p ∈ s.entries

instance (s : Experiences) (o p : Peer) : Decidable (s.Stored o p) :=
  inferInstanceAs (Decidable (_ ∈ s.entries))

theorem stored_iff {o p : Peer} : s.Stored o p ↔ s.entries[key o p]? = some (s.peek o p) := by
  unfold Stored peek
  rw [Std.ExtTreeMap.mem_iff_isSome_getElem?]
  cases s.entries[key o p]? <;> simp

/-- There are calls of stored pairs only. -/
theorem stored_of_used {o p : Peer} (h : (s.peek o p).used = true) : s.Stored o p := by
  by_contra hs
  unfold Stored at hs
  unfold peek at h
  rw [Std.ExtTreeMap.getElem?_eq_none hs] at h
  cases h

theorem peek_of_mem_toList {k : Pair} {e : Experience} (h : (k, e) ∈ s.entries.toList) {o p : Peer}
    (ho : o.id = k.observer) (hp : p.id = k.partner) : s.peek o p = e := by
  have hk : key o p = k := by unfold key; rw [ho, hp]
  unfold peek
  rw [hk, Std.ExtTreeMap.mem_toList_iff_getElem?_eq_some.mp h]
  rfl

theorem mem_toList_of_stored {o p : Peer} (h : s.Stored o p) :
    (key o p, s.peek o p) ∈ s.entries.toList :=
  Std.ExtTreeMap.mem_toList_iff_getElem?_eq_some.mpr (stored_iff.mp h)

theorem stored_of_mem_toList {k : Pair} {e : Experience} (h : (k, e) ∈ s.entries.toList)
    {o p : Peer} (ho : o.id = k.observer) (hp : p.id = k.partner) : s.Stored o p := by
  have hk : key o p = k := by unfold key; rw [ho, hp]
  unfold Stored
  rw [hk, Std.ExtTreeMap.mem_iff_isSome_getElem?, Std.ExtTreeMap.mem_toList_iff_getElem?_eq_some.mp h]
  rfl

/-- The calls of every pair are a 64-bit count if those of every stored pair are. -/
theorem fits_iff : (∀ o p, (s.peek o p).Fits) ↔ ∀ x ∈ s.entries.toList, x.2.Fits := by
  constructor
  · rintro h ⟨k, e⟩ hx
    rw [← peek_of_mem_toList (o := .named k.observer) (p := .named k.partner) hx rfl rfl]
    exact h _ _
  · intro h o p
    by_cases hs : s.Stored o p
    · exact h _ (mem_toList_of_stored hs)
    · unfold Stored at hs
      unfold peek
      rw [Std.ExtTreeMap.getElem?_eq_none hs]
      decide

/-! ### One observer -/

/-- **The listing of an observer**: each stored partner once, in ascending order, with its
experience. -/
structure Lists (s : Experiences) (o : Peer) (xs : List (Peer × Experience)) : Prop where
  ascending : xs.Pairwise fun x y => x.1.order y.1 = .lt
  mem_iff : ∀ p : Peer, (∃ x ∈ xs, x.1.id = p.id) ↔ s.Stored o p
  eq_peek : ∀ x ∈ xs, x.2 = s.peek o x.1

theorem lists_ofObserver (h : s.Named) (o : Peer) : s.Lists o (s.ofObserver o) := by
  have hmem : ∀ x ∈ s.ofObserver o, ∃ y ∈ s.entries.toList, o.id = y.1.observer ∧
      x = (s.peerOf y.1.partner, y.2) := by
    intro x hx
    obtain ⟨y, hy, rfl⟩ := List.mem_map.mp hx
    obtain ⟨hy, ho⟩ := List.mem_filter.mp hy
    exact ⟨y, hy, (beq_iff_eq.mp ho).symm, rfl⟩
  refine ⟨?ascending, fun p => ⟨?stored, fun hs => ?listed⟩, ?peek⟩
  case ascending =>
    unfold ofObserver
    rw [List.pairwise_map, List.pairwise_filter]
    refine Std.ExtTreeMap.ordered_keys_toList.imp fun {x y} hxy hx hy => ?_
    have ho : x.1.observer = y.1.observer := (beq_iff_eq.mp hx).trans (beq_iff_eq.mp hy).symm
    change compare (s.peerOf x.1.partner).id (s.peerOf y.1.partner).id = .lt
    rw [h.id_peerOf, h.id_peerOf, ← Pair.compare_of_observer_eq ho]
    exact hxy
  case stored =>
    rintro ⟨x, hx, hxp⟩
    obtain ⟨⟨k, e⟩, hy, ho, rfl⟩ := hmem x hx
    rw [h.id_peerOf] at hxp
    exact stored_of_mem_toList hy ho hxp.symm
  case listed =>
    refine ⟨(s.peerOf p.id, s.peek o p), ?_, h.id_peerOf p.id⟩
    refine List.mem_map.mpr ⟨(key o p, s.peek o p), ?_, rfl⟩
    exact List.mem_filter.mpr ⟨mem_toList_of_stored hs, beq_self_eq_true _⟩
  case peek =>
    intro x hx
    obtain ⟨⟨k, e⟩, hy, ho, rfl⟩ := hmem x hx
    exact (peek_of_mem_toList hy ho (h.id_peerOf _)).symm

/-! ### All pairs with a call -/

/-- **The listing of all interactions**: each pair with a call once, in ascending order of observer
and partner, with its experience. -/
structure ListsAll (s : Experiences) (xs : List (Peer × Peer × Experience)) : Prop where
  ascending : xs.Pairwise fun x y => compare (key x.1 x.2.1) (key y.1 y.2.1) = .lt
  mem_iff : ∀ o p : Peer, (∃ x ∈ xs, x.1.id = o.id ∧ x.2.1.id = p.id) ↔
    s.Stored o p ∧ (s.peek o p).used = true
  eq_peek : ∀ x ∈ xs, x.2.2 = s.peek x.1 x.2.1

/-- The interactions, read off the entries. -/
theorem interactions_eq (hf : ∀ o p, (s.peek o p).Fits) :
    s.interactions = .ok ((s.entries.toList.filter fun x => x.2.used).map fun x =>
      (s.peerOf x.1.observer, s.peerOf x.1.partner, x.2)) := by
  unfold interactions
  rw [filterM_eq_ok fun x hx => Experience.isUsed_of_fits (fits_iff.mp hf x hx)]
  rfl

/-- **Calls that cannot be counted are not listed**, and no others with them. -/
theorem fits_of_interactions {xs : List (Peer × Peer × Experience)} (h : s.interactions = .ok xs) :
    ∀ o p, (s.peek o p).Fits := by
  obtain ⟨used, hu, -⟩ := bind_eq_ok h
  refine fits_iff.mpr fun x hx => ?_
  by_contra hn
  obtain ⟨b, hb⟩ := exists_ok_of_filterM_eq_ok hu x hx
  have he : x.2.isUsed = .ok b := hb
  rw [Experience.isUsed_of_not_fits hn] at he
  cases he

theorem exists_interactions (h : s.Named) (hf : ∀ o p, (s.peek o p).Fits) :
    ∃ xs, s.interactions = .ok xs ∧ s.ListsAll xs := by
  refine ⟨_, interactions_eq hf, ?ascending, fun o p => ⟨?used, fun hs => ?listed⟩, ?peek⟩
  case ascending =>
    rw [List.pairwise_map, List.pairwise_filter]
    refine Std.ExtTreeMap.ordered_keys_toList.imp fun {x y} hxy _ _ => ?_
    unfold key
    rw [h.id_peerOf, h.id_peerOf, h.id_peerOf, h.id_peerOf]
    exact hxy
  case used =>
    rintro ⟨x, hx, hxo, hxp⟩
    obtain ⟨⟨k, e⟩, hy, rfl⟩ := List.mem_map.mp hx
    obtain ⟨hy, hu⟩ := List.mem_filter.mp hy
    rw [h.id_peerOf] at hxo hxp
    rw [peek_of_mem_toList hy hxo.symm hxp.symm]
    exact ⟨stored_of_mem_toList hy hxo.symm hxp.symm, hu⟩
  case listed =>
    refine ⟨(s.peerOf o.id, s.peerOf p.id, s.peek o p), ?_, h.id_peerOf _, h.id_peerOf _⟩
    exact List.mem_map.mpr ⟨(key o p, s.peek o p),
      List.mem_filter.mpr ⟨mem_toList_of_stored hs.1, hs.2⟩, rfl⟩
  case peek =>
    intro x hx
    obtain ⟨⟨k, e⟩, hy, rfl⟩ := List.mem_map.mp hx
    exact (peek_of_mem_toList (List.mem_filter.mp hy).1 (h.id_peerOf _) (h.id_peerOf _)).symm

/-! ### Shared experience -/

theorem bothUsed_eq_ok {p q r : Peer} (hp : (s.peek p r).Fits)
    (hq : (s.peek p r).used = true → (s.peek q r).Fits) :
    s.bothUsed p q r = .ok ((s.peek p r).used && (s.peek q r).used) := by
  unfold bothUsed
  rw [Experience.isUsed_of_fits hp]
  cases hu : (s.peek p r).used with
  | true => exact Experience.isUsed_of_fits (hq hu)
  | false => rfl

/-- **The calls of the local peer with the others can be compared** with those of each of them: they
are 64-bit counts, where they are asked for. -/
def Comparable (s : Experiences) (home : Peer) (peers : List Peer) : Prop :=
  ∀ x ∈ peers.zipIdx, ∀ y ∈ peers.zipIdx, x.1.id ≠ home.id → x.2 ≠ y.2 →
    (s.peek home y.1).Fits ∧ ((s.peek home y.1).used = true → (s.peek x.1 y.1).Fits)

theorem comparable_of_fits {home : Peer} {peers : List Peer}
    (h : ∀ p ∈ home :: peers, ∀ q ∈ peers, (s.peek p q).Fits) : s.Comparable home peers := by
  intro x hx y hy _ _
  have hxp : x.1 ∈ home :: peers := List.mem_cons_of_mem _ (List.fst_mem_of_mem_zipIdx hx)
  have hyp : y.1 ∈ peers := List.fst_mem_of_mem_zipIdx hy
  exact ⟨h home List.mem_cons_self y.1 hyp, fun _ => h x.1 hxp y.1 hyp⟩

/-- Asks for the shared experience of a row and a column, each a peer with its position. -/
def askCell (K : Type) [Number K] (s : Experiences) (home : Peer) (x y : Peer × ℕ) :
    Except Failure K :=
  if x.1.same home || x.2 == y.2 then pure Number.zero
  else do
    let both ← s.bothUsed home x.1 y.1
    pure (if both then Number.one else Number.zero)

/-- Asks for a row of shared experience. -/
def askRow (K : Type) [Number K] (s : Experiences) (home : Peer) (peers : List Peer)
    (x : Peer × ℕ) : Except Failure (Vec K) :=
  (peers.zipIdx.mapM (s.askCell K home x)).map Vec.mk

theorem shared_eq (K : Type) [Number K] (s : Experiences) (home : Peer) (peers : List Peer) :
    s.shared (K := K) home peers =
      peers.zipIdx.mapM (s.askRow K home peers) >>= fun rows => liftM (Matrix.ofRows rows) := by
  have hrow : ∀ x ∈ peers.zipIdx, (peers.zipIdx.mapM (s.askCell K home x) >>= fun cells =>
      pure (Vec.mk cells)) = s.askRow K home peers x := by
    intro x _
    unfold askRow
    cases peers.zipIdx.mapM (s.askCell K home x) <;> rfl
  rw [← mapM_congr hrow]
  rfl

/-- The shared experience of a row and a column. -/
def sharedCell (K : Type) [Number K] (s : Experiences) (home : Peer) (x y : Peer × ℕ) : K :=
  if x.1.same home || x.2 == y.2 then Number.zero
  else if (s.peek home y.1).used && (s.peek x.1 y.1).used then Number.one else Number.zero

/-- The matrix of shared experience, where the calls can be compared. -/
theorem exists_shared (K : Type) [Number K] {home : Peer} {peers : List Peer}
    (h : s.Comparable home peers) :
    ∃ m, s.shared (K := K) home peers = .ok m ∧
      m.Tabulates peers.zipIdx (s.sharedCell K home) := by
  have hcell : ∀ x ∈ peers.zipIdx, ∀ y ∈ peers.zipIdx,
      s.askCell K home x y = .ok (s.sharedCell K home x y) := by
    intro x hx y hy
    unfold askCell sharedCell
    by_cases hxy : (x.1.same home || x.2 == y.2) = true
    · rw [if_pos hxy, if_pos hxy]
      rfl
    · rw [if_neg hxy, if_neg hxy]
      rw [Bool.or_eq_true_iff, not_or, Peer.same_iff, beq_iff_eq] at hxy
      obtain ⟨hhome, hother⟩ := h x hx y hy hxy.1 hxy.2
      rw [bothUsed_eq_ok hhome hother]
      rfl
  have hrow : ∀ x ∈ peers.zipIdx, s.askRow K home peers x =
      .ok (Vec.tabulate peers.zipIdx (s.sharedCell K home x)) := by
    intro x hx
    unfold askRow
    rw [mapM_eq_ok (hcell x hx)]
    rfl
  obtain ⟨m, hm, ht⟩ := Matrix.ofRows_tabulate peers.zipIdx (s.sharedCell K home)
  refine ⟨m, ?_, ht⟩
  rw [shared_eq, mapM_eq_ok hrow]
  change (Matrix.ofRows _).mapError _ = _
  rw [hm]
  rfl

end Experiences

end Reputation
