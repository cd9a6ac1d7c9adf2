import Mathlib.Data.List.Perm.Basic
import Reputation.Proofs.Context
import Reputation.Proofs.Number.Exact
import Reputation.Selector.Weighted

/-! # What a selection in proportion to trust chooses

Peers of positive trust have positive trust in total, so a draw points at one of them whatever its
value is (`Selector.draw_eq`, `Selector.exists_draw`). Drawing several of them without putting one
back chooses distinct ones, as many as there are places or peers (`Selector.drawSeveral_spec`). With
this the selector chooses one peer of positive trust if there is one (`Selector.weighted_one`), and
several distinct ones within the limit (`Selector.weighted_several`). -/

namespace Reputation

open Number

namespace Selector

variable {K : Type} [Number K]

/-! ### The peers of positive trust -/

theorem mem_eligible {a : Assessment K} {x : Peer × K} :
    x ∈ eligible a ↔ x ∈ a.toList ∧ lt zero x.2 = true := by
  unfold eligible
  rw [List.mem_filter]

theorem pos_of_mem_eligible {a : Assessment K} : ∀ x ∈ eligible a, lt zero x.2 = true :=
  fun _ hx => (mem_eligible.mp hx).2

theorem mem_map_eligible {a : Assessment K} {p : Peer} :
    p ∈ (eligible a).map Prod.fst ↔ a.Trusts p := by
  constructor
  · intro hp
    obtain ⟨x, hx, rfl⟩ := List.mem_map.mp hp
    exact ⟨x.2, mem_eligible.mp hx⟩
  · rintro ⟨x, hx⟩
    exact List.mem_map.mpr ⟨(p, x), mem_eligible.mpr hx, rfl⟩

theorem distinct_eligible (a : Assessment K) : Peer.Distinct ((eligible a).map Prod.fst) := by
  have hd : Peer.Distinct a.context.peers := a.context.nodup
  rw [← a.map_fst_toList] at hd
  exact hd.sublist (List.filter_sublist.map Prod.fst)

/-! ### One draw -/

theorem bucket?_lt {d s : K} {ps : List (Peer × K)} {i : ℕ} (h : bucket? d s ps = some i) :
    i < ps.length := by
  induction ps generalizing s i with
  | nil => cases h
  | cons x ps ih =>
    unfold bucket? at h
    split at h
    · cases h
      exact Nat.succ_pos _
    · obtain ⟨j, hj, rfl⟩ := Option.map_eq_some_iff.mp h
      exact Nat.succ_lt_succ (ih hj)

theorem pick_lt {ps : List (Peer × K)} (h : ps ≠ []) (x : K) : pick ps x < ps.length := by
  have hpos : 0 < ps.length := List.length_pos_iff.mpr h
  unfold pick
  cases hb : bucket? (x * total ps) zero ps with
  | none =>
    change ps.length - 1 < ps.length
    omega
  | some i => exact bucket?_lt hb

theorem draw_nil (source : Source) (draws : Draws K) :
    draw ([] : List (Peer × K)) source draws = (none, source, draws) := rfl

section Signs
variable (hK : Signs K)
include hK

theorem total_pos {ps : List (Peer × K)} (hne : ps ≠ []) (h : ∀ x ∈ ps, lt zero x.2 = true) :
    lt zero (total ps) = true := by
  refine hK.sum_pos (by simpa using hne) fun y hy => ?_
  obtain ⟨x, hx, rfl⟩ := List.mem_map.mp hy
  exact h x hx

/-- **One draw is taken**, and what it points at is drawn. -/
theorem draw_eq {ps : List (Peer × K)} (hne : ps ≠ []) (h : ∀ x ∈ ps, lt zero x.2 = true)
    (source : Source) (draws : Draws K) :
    draw ps source draws = (some (pick ps (source.draw draws).1), (source.draw draws).2) := by
  have ht : le (total ps) zero = false := hK.not_le_zero _ (total_pos hK hne h)
  have he : ps.isEmpty = false := by simpa using hne
  unfold draw
  rw [he, ht]
  rfl

/-- **A draw points at one of the peers**, whatever its value is. -/
theorem exists_draw {ps : List (Peer × K)} (hne : ps ≠ []) (h : ∀ x ∈ ps, lt zero x.2 = true)
    (source : Source) (draws : Draws K) : ∃ i source' draws',
      draw ps source draws = (some i, source', draws') ∧ i < ps.length :=
  ⟨_, _, _, draw_eq hK hne h source draws, pick_lt hne _⟩

/-! ### Several draws -/

/-- **Draws without putting one back**: the chosen peers and some others are all peers, and there
are as many chosen ones as places, unless there are fewer peers. -/
theorem drawSeveral_spec (n : ℕ) {ps : List (Peer × K)} (h : ∀ x ∈ ps, lt zero x.2 = true)
    (source : Source) (draws : Draws K) :
    (drawSeveral source draws n ps).1.length = min n ps.length ∧
      ∃ rest, ((drawSeveral source draws n ps).1 ++ rest).Perm (ps.map Prod.fst) := by
  induction n generalizing ps source draws with
  | zero => exact ⟨(Nat.zero_min _).symm, ps.map Prod.fst, List.Perm.refl _⟩
  | succ n ih =>
    by_cases hne : ps = []
    · subst hne
      exact ⟨rfl, [], List.Perm.refl _⟩
    · obtain ⟨i, source', draws', hd, hi⟩ := exists_draw hK hne h source draws
      have hleft : ∀ x ∈ ps.eraseIdx i, lt zero x.2 = true :=
        fun x hx => h x (List.mem_of_mem_eraseIdx hx)
      obtain ⟨hlen, rest, hperm⟩ := ih hleft source' draws'
      have hchosen : (drawSeveral source draws (n + 1) ps).1 =
          ps[i].1 :: (drawSeveral source' draws' n (ps.eraseIdx i)).1 := by
        simp only [drawSeveral, hd, List.getElem?_eq_getElem hi]
        rfl
      have hpick : (ps[i] :: ps.eraseIdx i).Perm ps := List.getElem_cons_eraseIdx_perm hi
      rw [hchosen]
      constructor
      · rw [List.length_cons, hlen, List.length_eraseIdx_of_lt hi]
        omega
      · refine ⟨rest, ?_⟩
        rw [List.cons_append]
        exact (hperm.cons ps[i].1).trans (hpick.map Prod.fst)

/-! ### The selector -/

variable (limit : ℕ) (a : Assessment K) (source : Source) (env : Environment K)

omit hK in
/-- Nothing but draws is taken from the environment. -/
theorem weighted_roster :
    ((weighted limit a).one source env).2.2.roster = env.roster ∧
      ((weighted limit a).several source env).2.2.roster = env.roster := by
  constructor
  · rfl
  · unfold weighted
    dsimp only
    split <;> rfl

/-- **One peer of positive trust**, if there is one. -/
theorem weighted_one :
    ((∃ p, a.Trusts p) → ∃ p, ((weighted limit a).one source env).1 = some p ∧ a.Trusts p) ∧
      ((¬ ∃ p, a.Trusts p) → ((weighted limit a).one source env).1 = none) := by
  constructor
  · rintro ⟨q, hq⟩
    have hne : eligible a ≠ [] := by
      intro he
      have hm := mem_map_eligible.mpr hq
      rw [he] at hm
      cases hm
    obtain ⟨i, source', draws', hd, hi⟩ :=
      exists_draw hK hne pos_of_mem_eligible source env.draws
    refine ⟨(eligible a)[i].1, ?_, mem_map_eligible.mp (List.mem_map_of_mem (List.getElem_mem hi))⟩
    simp only [weighted, hd, Option.bind_some, List.getElem?_eq_getElem hi, Option.map_some]
  · intro hno
    have he : eligible a = [] := by
      refine List.eq_nil_iff_forall_not_mem.mpr fun x hx => hno ⟨x.1, ?_⟩
      exact mem_map_eligible.mp (List.mem_map_of_mem hx)
    simp only [weighted, he, draw_nil, Option.bind_none]

/-- **Several peers of positive trust**, as many as allowed or as there are. -/
theorem weighted_several :
    Peer.Distinct ((weighted limit a).several source env).1 ∧
      ((weighted limit a).several source env).1.length = min limit (eligible a).length ∧
      ∀ p ∈ ((weighted limit a).several source env).1, a.Trusts p := by
  unfold weighted
  dsimp only
  split
  · next hle =>
    refine ⟨distinct_eligible a, ?_, fun p hp => mem_map_eligible.mp hp⟩
    rw [List.length_map]
    omega
  · obtain ⟨hlen, rest, hperm⟩ :=
      drawSeveral_spec hK limit (pos_of_mem_eligible (a := a)) source env.draws
    have hd : Peer.Distinct ((drawSeveral source env.draws limit (eligible a)).1 ++ rest) :=
      (hperm.map Peer.id).nodup_iff.mpr (distinct_eligible a)
    refine ⟨hd.sublist (List.sublist_append_left _ _), hlen, fun p hp => ?_⟩
    exact mem_map_eligible.mp (hperm.mem_iff.mp (List.mem_append_left rest hp))

end Signs

end Selector

end Reputation
