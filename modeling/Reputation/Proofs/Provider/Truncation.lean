import Mathlib.Data.List.Perm.Basic
import Reputation.Proofs.Peer
import Reputation.Provider.Truncation

/-! # The peers that a truncation selects

The selection grows by peers that it does not hold and never by the local one, as long as there is
room (`Selection.enlist`). What is drawn comes from the candidates, each at most once (`fill_spec`).
So a selection has distinct peers, at most as many as asked for, and the local one last
(`select_spec`). -/

namespace Reputation

namespace Truncation

variable {K : Type} [Number K]

/-! ### The peers selected without a draw -/

/-- **A selection under way**: distinct peers other than the local one, within the capacity. -/
structure Selection (home : Peer) (capacity : ℕ) (ps : List Peer) : Prop where
  distinct : Peer.Distinct ps
  length_le : ps.length ≤ capacity
  ne_home : ∀ p ∈ ps, p.id ≠ home.id

theorem Selection.append {home : Peer} {capacity : ℕ} {ps qs : List Peer}
    (h : Selection home capacity ps) (hd : Peer.Distinct qs)
    (hl : ps.length + qs.length ≤ capacity) (hnew : ∀ p ∈ ps, ∀ q ∈ qs, p.id ≠ q.id)
    (hq : ∀ q ∈ qs, q.id ≠ home.id) : Selection home capacity (ps ++ qs) where
  distinct := h.distinct.append hd hnew
  length_le := by rwa [List.length_append]
  ne_home := by
    intro p hp
    rcases List.mem_append.mp hp with hp | hp
    · exact h.ne_home p hp
    · exact hq p hp

theorem Selection.enlist {home : Peer} {capacity : ℕ} {ps : List Peer}
    (h : Selection home capacity ps) {p : Peer} (hp : p.id ≠ home.id) :
    Selection home capacity (enlist capacity ps p) := by
  unfold Truncation.enlist
  split
  · next hc =>
    rw [Bool.and_eq_true, decide_eq_true_eq, Bool.not_eq_true', List.any_eq_false] at hc
    obtain ⟨hlt, hnew⟩ := hc
    refine h.append (Peer.distinct_singleton p) hlt (fun q hq r hr hqr => ?_) fun q hq => ?_
    · rw [List.mem_singleton.mp hr] at hqr
      exact hnew q hq (Peer.same_iff.mpr hqr.symm)
    · rw [List.mem_singleton.mp hq]; exact hp
  · exact h

theorem Selection.foldl_enlist {home : Peer} {capacity : ℕ} {ps : List Peer}
    (h : Selection home capacity ps) {qs : List Peer} (hq : ∀ q ∈ qs, q.id ≠ home.id) :
    Selection home capacity (qs.foldl (Truncation.enlist capacity) ps) := by
  induction qs generalizing ps with
  | nil => exact h
  | cons q qs ih =>
    exact ih (h.enlist (hq q List.mem_cons_self)) fun r hr => hq r (List.mem_cons_of_mem _ hr)

theorem id_ne_home_of_mem_others {c : Context} {p : Peer} (h : p ∈ c.others) :
    p.id ≠ c.home.id := by
  have hs := (List.mem_filter.mp h).2
  intro he
  rw [Peer.same_iff.mpr he] at hs
  cases hs

theorem selection_settled (c : Context) (previous : Option (Assessment K)) (size : ℕ) :
    Selection c.home (size - 1) (settled c previous size) := by
  have h0 : Selection c.home (size - 1) [] := ⟨List.nodup_nil, Nat.zero_le _, by simp⟩
  unfold settled
  refine (h0.foldl_enlist fun q hq => ?_).foldl_enlist fun q hq => ?_
  · exact id_ne_home_of_mem_others (List.mem_of_mem_filter hq)
  · cases previous with
    | none => cases hq
    | some a =>
      obtain ⟨p, hp, hs⟩ := List.any_eq_true.mp (List.mem_filter.mp hq).2
      rw [Peer.same_iff.mp hs]
      exact id_ne_home_of_mem_others hp

/-! ### The peers drawn -/

theorem swapRemove_perm {ps : List Peer} {i : ℕ} {p : Peer} (h : ps[i]? = some p) :
    (p :: swapRemove ps i).Perm ps := by
  obtain ⟨hi, rfl⟩ := List.getElem?_eq_some_iff.mp h
  have hne : ps ≠ [] := List.ne_nil_of_length_pos (by omega)
  obtain ⟨init, q, rfl⟩ : ∃ init q, ps = init ++ [q] :=
    ⟨_, _, (List.dropLast_append_getLast hne).symm⟩
  unfold swapRemove
  rw [List.getLast?_concat]
  simp only
  rw [List.length_append, List.length_singleton] at hi
  by_cases hl : i < init.length
  · -- the last peer takes the place of the one that is drawn
    rw [List.set_append_left _ _ hl, List.dropLast_concat, List.getElem_append_left hl]
    calc (init[i] :: init.set i q).Perm (init[i] :: q :: init.eraseIdx i) :=
          (List.set_perm_cons_eraseIdx hl q).cons _
      _ |>.Perm (q :: init[i] :: init.eraseIdx i) := List.Perm.swap _ _ _
      _ |>.Perm (q :: init) := (List.getElem_cons_eraseIdx_perm hl).cons _
      _ |>.Perm (init ++ [q]) := (List.perm_append_singleton q init).symm
  · have he : i = init.length := by omega
    subst he
    rw [List.set_append_right _ _ (Nat.le_refl _), Nat.sub_self, List.set_cons_zero,
      List.dropLast_concat, List.getElem_concat_length rfl]
    exact (List.perm_append_singleton q init).symm

/-- **Draws**: distinct candidates, at most one for each place. -/
theorem fill_spec (room : ℕ) {candidates : List Peer} (hd : Peer.Distinct candidates)
    (source : Source) (draws : Draws K) :
    Peer.Distinct (fill source draws room candidates).1 ∧
      (fill source draws room candidates).1.length ≤ room ∧
      (fill source draws room candidates).1 ⊆ candidates := by
  induction room generalizing candidates source draws with
  | zero => exact ⟨List.nodup_nil, Nat.le_refl _, List.nil_subset _⟩
  | succ room ih =>
    unfold fill
    simp only
    split
    · exact ⟨List.nodup_nil, Nat.zero_le _, List.nil_subset _⟩
    · next p hp =>
      have hperm := swapRemove_perm hp
      have hd' : Peer.Distinct (p :: swapRemove candidates _) :=
        (hperm.map Peer.id).nodup_iff.mpr hd
      obtain ⟨hn, hd'⟩ := List.nodup_cons.mp hd'
      obtain ⟨h1, h2, h3⟩ := ih hd' (source.index draws candidates.length).2.1
        (source.index draws candidates.length).2.2
      refine ⟨List.nodup_cons.mpr ⟨fun hm => ?_, h1⟩, Nat.succ_le_succ h2, ?_⟩
      · obtain ⟨q, hq, hqp⟩ := List.mem_map.mp hm
        exact hn (List.mem_map.mpr ⟨q, h3 hq, hqp⟩)
      · refine List.cons_subset.mpr ⟨hperm.subset List.mem_cons_self, fun q hq => ?_⟩
        exact hperm.subset (List.mem_cons_of_mem _ (h3 hq))

/-! ### The selection -/

/-- **The selected peers** are distinct, at most `size`, and end with the local one. -/
theorem select_spec (c : Context) (previous : Option (Assessment K)) {size : ℕ} (hsize : 1 ≤ size)
    (source : Source) (draws : Draws K) :
    Peer.Distinct (select c previous size source draws).1 ∧
      (select c previous size source draws).1.length ≤ size ∧
      (select c previous size source draws).1.getLast? = some c.home := by
  have hs := selection_settled c previous size
  set chosen := settled c previous size
  set candidates := c.others.filter fun p => !chosen.any p.same
  have hcd : Peer.Distinct candidates :=
    Peer.Distinct.sublist c.nodup (List.filter_sublist.trans List.filter_sublist)
  obtain ⟨hd, hl, hsub⟩ := fill_spec (size - 1 - chosen.length) hcd source draws
  set drawn := (fill source draws (size - 1 - chosen.length) candidates).1
  have hcl := hs.length_le
  have hall : Selection c.home (size - 1) (chosen ++ drawn) := by
    refine hs.append hd (by omega) (fun p hp q hq hpq => ?_) fun q hq => ?_
    · have hq' := (List.mem_filter.mp (hsub hq)).2
      rw [Bool.not_eq_true', List.any_eq_false] at hq'
      exact hq' p hp (Peer.same_iff.mpr hpq.symm)
    · exact id_ne_home_of_mem_others (List.mem_of_mem_filter (hsub hq))
  have he : (select c previous size source draws).1 = chosen ++ drawn ++ [c.home] := rfl
  have hal := hall.length_le
  rw [he]
  refine ⟨hall.distinct.append (Peer.distinct_singleton _) fun p hp q hq => ?_, ?_,
    List.getLast?_concat⟩
  · rw [List.mem_singleton.mp hq]; exact hall.ne_home p hp
  · rw [List.length_append, List.length_singleton]; omega

end Truncation

end Reputation
