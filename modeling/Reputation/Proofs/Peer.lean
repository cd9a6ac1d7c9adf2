import Mathlib.Data.List.Nodup
import Mathlib.Data.Nat.Notation
import Reputation.Peer
import Reputation.Proofs.Failure

/-! # Distinct peers

In a list of distinct identities a position and a peer determine each other
(`Peer.same_iff_of_getElem?`), so a scan that compares positions compares peers
(`Peer.zipIdx_map_eq_map`). The first peers of a list have each of its identities once
(`Peer.newcomers_spec`, `Peer.mem_map_firsts`). -/

namespace Reputation

namespace Peer

@[simp] theorem same_iff {p q : Peer} : p.same q = true ↔ p.id = q.id := by simp [same]

theorem same_self (p : Peer) : p.same p = true := by simp

theorem same_congr {p p' q q' : Peer} (hp : p.id = p'.id) (hq : q.id = q'.id) :
    p.same q = p'.same q' := by
  unfold same
  rw [hp, hq]

/-- A list of peers of distinct identities. -/
def Distinct (ps : List Peer) : Prop := (ps.map Peer.id).Nodup

instance (ps : List Peer) : Decidable (Distinct ps) :=
  inferInstanceAs (Decidable (ps.map Peer.id).Nodup)

theorem distinct_singleton (p : Peer) : Distinct [p] := List.nodup_singleton p.id

theorem Distinct.append {ps qs : List Peer} (hp : Distinct ps) (hq : Distinct qs)
    (h : ∀ p ∈ ps, ∀ q ∈ qs, p.id ≠ q.id) : Distinct (ps ++ qs) := by
  unfold Distinct
  rw [List.map_append, List.nodup_append]
  refine ⟨hp, hq, fun x hx y hy => ?_⟩
  obtain ⟨p, hp, rfl⟩ := List.mem_map.mp hx
  obtain ⟨q, hq, rfl⟩ := List.mem_map.mp hy
  exact h p hp q hq

theorem Distinct.sublist {ps qs : List Peer} (hq : Distinct qs) (h : ps.Sublist qs) : Distinct ps :=
  (h.map Peer.id).nodup hq

section Distinct
variable {ps : List Peer} (h : Distinct ps)
include h

theorem Distinct.eq_of_id_eq {p q : Peer} (hp : p ∈ ps) (hq : q ∈ ps) (hpq : p.id = q.id) : p = q :=
  List.inj_on_of_nodup_map h hp hq hpq

theorem same_iff_of_getElem? {i j : ℕ} {p q : Peer} (hp : ps[i]? = some p) (hq : ps[j]? = some q) :
    i = j ↔ q.same p = true := by
  rw [same_iff]
  constructor
  · rintro rfl
    rw [hp] at hq; cases hq; rfl
  · intro hpq
    obtain ⟨hi, -⟩ := List.getElem?_eq_some_iff.mp hp
    exact (List.getElem?_inj (by simpa using hi) h).mp (by simp [hp, hq, hpq])

/-- Positions other than that of `p` are peers other than `p`. -/
theorem bne_eq_of_getElem? {i j : ℕ} {p q : Peer} (hp : ps[i]? = some p) (hq : ps[j]? = some q) :
    (j != i) = !q.same p := by
  have := same_iff_of_getElem? h hp hq
  rw [Bool.eq_iff_iff]
  simp only [bne_iff_ne, ne_eq, Bool.not_eq_true', Bool.eq_false_iff, ← this]
  exact not_congr eq_comm

end Distinct

/-- **Newcomers** are distinct and none of those seen. -/
theorem newcomers_spec (seen : List String) (ps : List Peer) :
    Distinct (newcomers seen ps) ∧ ∀ p ∈ newcomers seen ps, p.id ∉ seen := by
  induction ps generalizing seen with
  | nil => exact ⟨List.nodup_nil, fun _ hp => by cases hp⟩
  | cons p ps ih =>
    unfold newcomers
    split
    · exact ih seen
    · next hn =>
      obtain ⟨hd, hs⟩ := ih (p.id :: seen)
      refine ⟨List.nodup_cons.mpr ⟨fun hm => ?_, hd⟩, fun q hq hqs => ?_⟩
      · obtain ⟨q, hq, hqp⟩ := List.mem_map.mp hm
        exact hs q hq (hqp ▸ List.mem_cons_self)
      · rcases List.mem_cons.mp hq with rfl | hq
        · exact hn (List.contains_iff_mem.mpr hqs)
        · exact hs q hq (List.mem_cons_of_mem _ hqs)

theorem mem_map_newcomers {seen : List String} {ps : List Peer} {id : String} :
    id ∈ (newcomers seen ps).map Peer.id ↔ id ∈ ps.map Peer.id ∧ id ∉ seen := by
  induction ps generalizing seen with
  | nil => simp [newcomers]
  | cons p ps ih =>
    unfold newcomers
    rw [List.map_cons, List.mem_cons]
    by_cases hp : p.id ∈ seen
    · rw [if_pos (List.contains_iff_mem.mpr hp), ih]
      constructor
      · exact fun h => ⟨Or.inr h.1, h.2⟩
      · rintro ⟨rfl | h, hid⟩
        · exact absurd hp hid
        · exact ⟨h, hid⟩
    · rw [if_neg fun h => hp (List.contains_iff_mem.mp h), List.map_cons, List.mem_cons, ih,
        List.mem_cons, not_or]
      by_cases hid : id = p.id
      · subst hid
        exact iff_of_true (Or.inl rfl) ⟨Or.inl rfl, hp⟩
      · simp only [hid, false_or, not_false_eq_true, true_and]

theorem mem_map_firsts {ps : List Peer} {id : String} :
    id ∈ (firsts ps).map Peer.id ↔ id ∈ ps.map Peer.id := by
  unfold firsts
  rw [mem_map_newcomers]
  simp

/-- A scan over positions whose values follow from the peers alone. -/
theorem zipIdx_map_eq_map {β : Type} {ps : List Peer} {f : Peer × ℕ → β} {g : Peer → β}
    (h : ∀ i p, ps[i]? = some p → f (p, i) = g p) : ps.zipIdx.map f = ps.map g := by
  have hm : ps.zipIdx.map f = ps.zipIdx.map (g ∘ Prod.fst) := by
    refine List.map_congr_left fun x hx => ?_
    exact h x.2 x.1 (List.mem_zipIdx_iff_getElem?.mp hx)
  rw [hm, ← List.map_map, List.zipIdx_map_fst]

theorem zipIdx_mapM_eq_mapM {β ε : Type} {ps : List Peer} {f : Peer × ℕ → Except ε β}
    {g : Peer → Except ε β} (h : ∀ i p, ps[i]? = some p → f (p, i) = g p) :
    ps.zipIdx.mapM f = ps.mapM g := by
  have hm : ps.zipIdx.mapM f = ps.zipIdx.mapM (g ∘ Prod.fst) :=
    mapM_congr fun x hx => h x.2 x.1 (List.mem_zipIdx_iff_getElem?.mp hx)
  rw [hm, ← List.mapM_map, List.zipIdx_map_fst]

theorem zipIdx_foldlM_eq_foldlM {β ε : Type} {ps : List Peer} {f : β → Peer × ℕ → Except ε β}
    {g : β → Peer → Except ε β} (h : ∀ s i p, ps[i]? = some p → f s (p, i) = g s p) (s : β) :
    ps.zipIdx.foldlM f s = ps.foldlM g s := by
  have hm : ps.zipIdx.foldlM f s = ps.zipIdx.foldlM (fun s x => g s x.1) s :=
    foldlM_congr (fun s x hx => h s x.2 x.1 (List.mem_zipIdx_iff_getElem?.mp hx)) s
  rw [hm, ← List.foldlM_map, List.zipIdx_map_fst]

/-- A selection by position that is one by peer. -/
theorem zipIdx_filter_map_fst (ps : List Peer) {P : Peer × ℕ → Bool} {Q : Peer → Bool}
    (h : ∀ i p, ps[i]? = some p → P (p, i) = Q p) :
    (ps.zipIdx.filter P).map Prod.fst = ps.filter Q := by
  have hf : ps.zipIdx.filter P = ps.zipIdx.filter (Q ∘ Prod.fst) := by
    refine List.filter_congr fun x hx => ?_
    exact h x.2 x.1 (List.mem_zipIdx_iff_getElem?.mp hx)
  rw [hf, ← List.filter_map, List.zipIdx_map_fst]

end Peer

end Reputation
