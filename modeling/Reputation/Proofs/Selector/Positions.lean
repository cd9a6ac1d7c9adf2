import Mathlib.Data.Nat.Notation
import Reputation.Proofs.Context

/-! # Positions of positive trust

A selector keeps the peers of positive trust in a list of their own, so a position in that list is
not the position of the peer in the context. The two are tied together by the list up to the peer:
as many elements of it as are kept come before the peer (`filter_eq_of_getElem?`), and each kept
element comes from such a position (`exists_getElem?_of_filter`).

`Assessment.positives` are the positions of positive trust in the context, and `Assessment.without`
takes the trust from one of them. This takes exactly this element out of the kept ones
(`filter_set_eq_eraseIdx`) and leaves every other position as it was
(`Assessment.of_mem_positives_without`). -/

namespace Reputation

open Number

/-! ### Elements of a filtered list -/

section Filter
variable {α : Type} {P : α → Bool} {l : List α} {i j : ℕ} {x : α}

/-- **A filtered list around an element that passes.** -/
theorem filter_eq_of_getElem? (h : l[i]? = some x) (hx : P x = true) :
    l.filter P = (l.take i).filter P ++ x :: (l.drop (i + 1)).filter P := by
  obtain ⟨hi, rfl⟩ := List.getElem?_eq_some_iff.mp h
  calc l.filter P = (l.take i ++ l[i] :: l.drop (i + 1)).filter P := by
        rw [← List.drop_eq_getElem_cons hi, List.take_append_drop]
    _ = _ := by rw [List.filter_append, List.filter_cons_of_pos hx]

theorem getElem?_filter_of_getElem? (h : l[i]? = some x) (hx : P x = true) :
    (l.filter P)[((l.take i).filter P).length]? = some x := by
  rw [filter_eq_of_getElem? h hx, List.getElem?_append_right (Nat.le_refl _), Nat.sub_self]
  rfl

theorem take_filter_of_getElem? (h : l[i]? = some x) (hx : P x = true) :
    (l.filter P).take ((l.take i).filter P).length = (l.take i).filter P := by
  rw [filter_eq_of_getElem? h hx]
  exact List.take_left

/-- **An element of a filtered list** comes from a position before which as many elements pass. -/
theorem exists_getElem?_of_filter (h : (l.filter P)[j]? = some x) :
    ∃ i, l[i]? = some x ∧ P x = true ∧ ((l.take i).filter P).length = j := by
  induction l generalizing j with
  | nil => cases h
  | cons y l ih =>
    cases hy : P y with
    | true =>
      rw [List.filter_cons_of_pos hy] at h
      cases j with
      | zero =>
        obtain rfl := Option.some.inj h
        exact ⟨0, rfl, hy, rfl⟩
      | succ j =>
        obtain ⟨i, hi, hx, hj⟩ := ih h
        refine ⟨i + 1, hi, hx, ?_⟩
        rw [List.take_succ_cons, List.filter_cons_of_pos hy, List.length_cons, hj]
    | false =>
      rw [List.filter_cons_of_neg (by simp [hy])] at h
      obtain ⟨i, hi, hx, hj⟩ := ih h
      refine ⟨i + 1, hi, hx, ?_⟩
      rw [List.take_succ_cons, List.filter_cons_of_neg (by simp [hy]), hj]

/-- Replacing an element that passes by one that does not takes it out of the filtered list. -/
theorem filter_set_eq_eraseIdx (h : l[i]? = some x) (hx : P x = true) {y : α} (hy : P y = false) :
    (l.set i y).filter P = (l.filter P).eraseIdx ((l.take i).filter P).length := by
  obtain ⟨hi, -⟩ := List.getElem?_eq_some_iff.mp h
  rw [List.set_eq_take_append_cons_drop, if_pos hi, List.filter_append,
    List.filter_cons_of_neg (by simp [hy]), filter_eq_of_getElem? h hx,
    List.eraseIdx_append_of_length_le (Nat.le_refl _), Nat.sub_self, List.eraseIdx_cons_zero]

end Filter

namespace Assessment

variable {K : Type} {a : Assessment K} {i j : ℕ} {x : Peer × K}

/-! ### A position of an assessment -/

theorem map_snd_toList (a : Assessment K) : a.toList.map Prod.snd = a.trust.entries :=
  List.map_snd_zip (Nat.le_of_eq a.size_eq)

variable [Number K]

theorem getElem?_peers (h : a.toList[i]? = some x) : a.context.peers[i]? = some x.1 := by
  rw [← a.map_fst_toList, List.getElem?_map, h, Option.map_some]

/-- **A peer has one position**, and so one trust. -/
theorem eq_of_getElem? {y : Peer × K} (hi : a.toList[i]? = some x) (hj : a.toList[j]? = some y)
    (h : x.1 = y.1) : i = j := by
  have hd : a.context.peers.Nodup := List.Nodup.of_map Peer.id a.context.nodup
  obtain ⟨hlt, -⟩ := List.getElem?_eq_some_iff.mp (getElem?_peers hi)
  exact (List.getElem?_inj hlt hd).mp (by rw [getElem?_peers hi, getElem?_peers hj, h])

/-- The positions of positive trust, in ascending order. -/
def positives (a : Assessment K) : List ℕ :=
  (a.toList.zipIdx.filter fun x => lt zero x.1.2).map Prod.snd

theorem mem_positives : i ∈ a.positives ↔ ∃ x, a.toList[i]? = some x ∧ lt zero x.2 = true := by
  unfold positives
  simp only [List.mem_map, List.mem_filter, Prod.exists, exists_eq_right,
    List.mem_zipIdx_iff_getElem?]

theorem ascending_positives (a : Assessment K) : a.positives.Pairwise (· < ·) := by
  have hasc : (a.toList.zipIdx.map Prod.snd).Pairwise (· < ·) := by
    rw [List.zipIdx_map_snd]
    exact List.pairwise_lt_range'
  exact hasc.sublist (List.filter_sublist.map Prod.snd)

theorem nodup_positives (a : Assessment K) : a.positives.Nodup :=
  a.ascending_positives.imp Nat.ne_of_lt

/-! ### Taking trust away -/

/-- The assessment with the trust at a position set to zero. -/
def without (a : Assessment K) (i : ℕ) : Assessment K where
  context := a.context
  trust := ⟨a.trust.entries.set i zero⟩
  size_eq := List.length_set.trans a.size_eq

theorem length_foldl_set (is : List ℕ) (xs : List K) :
    (is.foldl (fun xs i => xs.set i zero) xs).length = xs.length := by
  induction is generalizing xs with
  | nil => rfl
  | cons i is ih => rw [List.foldl_cons, ih, List.length_set]

/-- The assessment with the trust at some positions set to zero. -/
def withoutAll (a : Assessment K) (is : List ℕ) : Assessment K where
  context := a.context
  trust := ⟨is.foldl (fun xs i => xs.set i zero) a.trust.entries⟩
  size_eq := (length_foldl_set is a.trust.entries).trans a.size_eq

theorem toList_without (h : a.toList[i]? = some x) :
    (a.without i).toList = a.toList.set i (x.1, zero) := by
  have hpeer := getElem?_peers h
  have hi : i < a.trust.entries.length := by
    obtain ⟨hi, -⟩ := List.getElem?_eq_some_iff.mp h
    rw [toList, List.length_zip] at hi
    omega
  refine List.ext_getElem? fun j => ?_
  unfold toList without
  simp only [List.zip_eq_zipWith, List.getElem?_zipWith, List.getElem?_set, List.length_zipWith]
  by_cases hij : i = j
  · subst hij
    obtain ⟨hlt, hget⟩ := List.getElem?_eq_some_iff.mp hpeer
    have hmin : i < min a.context.peers.length a.trust.entries.length := Nat.lt_min.mpr ⟨hlt, hi⟩
    simp [hi, hlt, hget, hmin]
  · rw [if_neg hij, if_neg hij]

theorem of_mem_positives_without (hi : i ∈ a.positives) (h : lt (zero : K) zero = false)
    (hj : j ∈ (a.without i).positives) : j ≠ i ∧ j ∈ a.positives := by
  obtain ⟨x, hx, -⟩ := mem_positives.mp hi
  obtain ⟨y, hy, hpos⟩ := mem_positives.mp hj
  rw [toList_without hx] at hy
  have hji : j ≠ i := by
    rintro rfl
    obtain ⟨hlt, -⟩ := List.getElem?_eq_some_iff.mp hx
    rw [List.getElem?_set_self hlt] at hy
    obtain rfl := Option.some.inj hy
    rw [h] at hpos
    cases hpos
  rw [List.getElem?_set_ne (Ne.symm hji)] at hy
  exact ⟨hji, mem_positives.mpr ⟨y, hy, hpos⟩⟩

end Assessment

end Reputation
