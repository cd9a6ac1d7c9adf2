import Mathlib.Algebra.Order.BigOperators.Group.List
import Mathlib.Algebra.Order.Field.Rat
import Mathlib.Order.Interval.Set.Defs
import Mathlib.Tactic.Linarith
import Reputation.Proofs.Selector.Positions
import Reputation.Proofs.Selector.Weighted

/-! # Selection in proportion to trust

The walk over the summed up trust finds the one element whose sum is the first above the draw
(`Selector.bucket?_eq_some_iff`), and it finds one if the draw is below the sum of all
(`Selector.exists_bucket?`). In exact arithmetic a draw from `[0, 1)` is, so the way out for
rounding is never taken. What the walk finds in the list of the peers of positive trust is told by
`Assessment.before`, the positive trust before a position of the context:
`Selector.one_eq_some_iff`.

So the draws for a peer of positive trust are an interval of `[0, 1)` as long as its part of the
positive trust, and each draw is for exactly one peer: `Selector.one_proportional`. -/

namespace Reputation

open Number

namespace Assessment

variable {a : Assessment ℚ} {i : ℕ} {x : Peer × ℚ}

/-- The positive trust in the peers before a position. -/
def before (a : Assessment ℚ) (i : ℕ) : ℚ := ((a.trust.entries.take i).filter (0 < ·)).sum

/-- The positive trust in all peers. -/
def mass (a : Assessment ℚ) : ℚ := (a.trust.entries.filter (0 < ·)).sum

/-- The numbers in `[0, 1)` that stand for a position: its part of the positive trust. -/
def part (a : Assessment ℚ) (i : ℕ) : Set ℚ :=
  Set.Ico (a.before i / a.mass) (a.before (i + 1) / a.mass)

theorem before_add_one (h : a.toList[i]? = some x) (hx : 0 < x.2) :
    a.before (i + 1) = a.before i + x.2 := by
  have hi : a.trust.entries[i]? = some x.2 := by
    rw [← a.map_snd_toList, List.getElem?_map, h, Option.map_some]
  unfold before
  rw [List.take_add_one, hi, Option.toList_some, List.filter_append, List.sum_append,
    List.filter_cons_of_pos (by simpa using hx), List.filter_nil, List.sum_singleton]

theorem sum_pos_nonneg (xs : List ℚ) : 0 ≤ (xs.filter (0 < ·)).sum := by
  refine List.sum_nonneg fun y hy => ?_
  have hpos := List.of_mem_filter hy
  exact (of_decide_eq_true hpos).le

theorem before_nonneg (a : Assessment ℚ) (i : ℕ) : 0 ≤ a.before i := sum_pos_nonneg _

theorem before_le_mass (a : Assessment ℚ) (i : ℕ) : a.before i ≤ a.mass := by
  have hsplit : a.mass = a.before i + ((a.trust.entries.drop i).filter (0 < ·)).sum := by
    unfold mass before
    rw [← List.sum_append, ← List.filter_append, List.take_append_drop]
  rw [hsplit]
  exact le_add_of_nonneg_right (sum_pos_nonneg _)

theorem mem_part_iff {d : ℚ} (hm : 0 < a.mass) :
    d ∈ a.part i ↔ a.before i ≤ d * a.mass ∧ d * a.mass < a.before (i + 1) := by
  unfold part
  rw [Set.mem_Ico, div_le_iff₀ hm, lt_div_iff₀ hm]

theorem part_subset (hm : 0 < a.mass) (i : ℕ) : a.part i ⊆ Set.Ico 0 1 := by
  intro d hd
  have hlast : a.before (i + 1) / a.mass ≤ 1 := (div_le_one₀ hm).mpr (a.before_le_mass (i + 1))
  exact ⟨(div_nonneg (a.before_nonneg i) hm.le).trans hd.1, hd.2.trans_le hlast⟩

end Assessment

namespace Selector

/-! ### The walk -/

section Walk
variable {d s : ℚ} {ps : List (Peer × ℚ)}

/-- **The walk finds the element at which the draw lies between two sums.** -/
theorem bucket?_eq_some_iff (hpos : ∀ x ∈ ps, 0 < x.2) (hs : s ≤ d) {j : ℕ} :
    bucket? d s ps = some j ↔ ∃ x, ps[j]? = some x ∧ s + ((ps.take j).map Prod.snd).sum ≤ d ∧
      d < s + ((ps.take j).map Prod.snd).sum + x.2 := by
  induction ps generalizing s j with
  | nil => simp [bucket?]
  | cons y ps ih =>
    have hps : ∀ x ∈ ps, 0 < x.2 := fun x hx => hpos x (List.mem_cons_of_mem y hx)
    unfold bucket?
    rw [lt_rat]
    by_cases hd : d < s + y.2
    · rw [if_pos (by simpa using hd)]
      cases j with
      | zero => simp [hs, hd]
      | succ j =>
        have hnonneg : 0 ≤ ((ps.take j).map Prod.snd).sum := by
          refine List.sum_nonneg fun z hz => ?_
          obtain ⟨x, hx, rfl⟩ := List.mem_map.mp hz
          exact (hps x (List.mem_of_mem_take hx)).le
        refine iff_of_false (by simp) ?_
        rintro ⟨x, -, hle, -⟩
        rw [List.take_succ_cons, List.map_cons, List.sum_cons] at hle
        linarith
    · rw [if_neg (by simpa using hd)]
      cases j with
      | zero => simp [hd]
      | succ j =>
        have hstep := ih hps (not_lt.mp hd) (j := j)
        simp only [Option.map_eq_some_iff, Nat.add_right_cancel_iff, exists_eq_right, hstep,
          List.getElem?_cons_succ, List.take_succ_cons, List.map_cons, List.sum_cons, add_assoc]

/-- **The walk finds an element** for a draw below the sum of all. -/
theorem exists_bucket? (hd : d < s + (ps.map Prod.snd).sum) (hs : s ≤ d) :
    ∃ j, bucket? d s ps = some j := by
  induction ps generalizing s with
  | nil => rw [List.map_nil, List.sum_nil, add_zero] at hd; exact absurd hd (not_lt.mpr hs)
  | cons y ps ih =>
    unfold bucket?
    by_cases hy : d < s + y.2
    · exact ⟨0, if_pos (by simpa using hy)⟩
    · rw [List.map_cons, List.sum_cons, ← add_assoc] at hd
      obtain ⟨j, hj⟩ := ih hd (not_lt.mp hy)
      exact ⟨j + 1, by rw [if_neg (by simpa using hy), hj]; rfl⟩

end Walk

/-! ### The choice of a peer -/

variable {a : Assessment ℚ} {d : ℚ} {i j : ℕ} {p : Peer} {x : ℚ}

theorem pos_of_mem_eligible_rat : ∀ y ∈ eligible a, 0 < y.2 := fun y hy => by
  simpa using pos_of_mem_eligible y hy

theorem map_snd_filter_pos (ps : List (Peer × ℚ)) :
    (ps.filter fun y => lt zero y.2).map Prod.snd = (ps.map Prod.snd).filter (0 < ·) := by
  rw [List.filter_map]
  rfl

theorem total_eligible (a : Assessment ℚ) : total (eligible a) = a.mass := by
  unfold total Assessment.mass
  rw [sum_rat, ← a.map_snd_toList, ← map_snd_filter_pos]
  rfl

theorem eligible_ne_nil_iff : eligible a ≠ [] ↔ ∃ x ∈ a.trust.entries, 0 < x := by
  rw [← a.map_snd_toList]
  constructor
  · intro h
    obtain ⟨y, hy⟩ := List.exists_mem_of_ne_nil _ h
    exact ⟨y.2, List.mem_map_of_mem (mem_eligible.mp hy).1, pos_of_mem_eligible_rat y hy⟩
  · rintro ⟨x, hx, hpos⟩
    obtain ⟨y, hy, rfl⟩ := List.mem_map.mp hx
    exact List.ne_nil_of_mem (mem_eligible.mpr ⟨hy, by simpa using hpos⟩)

theorem mass_pos (h : eligible a ≠ []) : 0 < a.mass := by
  rw [← total_eligible]
  simpa using total_pos signs_rat h pos_of_mem_eligible

/-- The place of a peer in the list of those of positive trust. -/
def rank (a : Assessment ℚ) (i : ℕ) : ℕ :=
  ((a.toList.take i).filter fun y => lt zero y.2).length

theorem getElem?_eligible (hi : a.toList[i]? = some (p, x)) (hx : 0 < x) :
    (eligible a)[rank a i]? = some (p, x) :=
  getElem?_filter_of_getElem? hi (by simpa using hx)

theorem mass_pos_of_getElem? (hi : a.toList[i]? = some (p, x)) (hx : 0 < x) : 0 < a.mass :=
  mass_pos (List.ne_nil_of_mem (List.mem_of_getElem? (getElem?_eligible hi hx)))

/-- **A draw finds the place of a peer** if it is in the part of the peer. -/
theorem bucket?_eq_rank_iff (hi : a.toList[i]? = some (p, x)) (hx : 0 < x) (hd : 0 ≤ d) :
    bucket? (d * total (eligible a)) zero (eligible a) = some (rank a i) ↔
      a.before i ≤ d * a.mass ∧ d * a.mass < a.before (i + 1) := by
  have hP : lt zero x = true := by simpa using hx
  have hget := getElem?_eligible hi hx
  have hbefore : (((eligible a).take (rank a i)).map Prod.snd).sum = a.before i := by
    unfold eligible rank Assessment.before
    rw [take_filter_of_getElem? hi hP, map_snd_filter_pos, ← a.map_snd_toList, List.map_take]
  have hmass := mass_pos_of_getElem? hi hx
  have hstart : zero ≤ d * total (eligible a) := by
    rw [total_eligible]
    exact mul_nonneg hd hmass.le
  rw [bucket?_eq_some_iff pos_of_mem_eligible_rat hstart, total_eligible, hbefore, hget,
    Assessment.before_add_one hi hx]
  simp

/-- **A draw from `[0, 1)` finds a place**; rounding aside, no way out is needed. -/
theorem exists_bucket?_eligible (h : eligible a ≠ []) (h0 : 0 ≤ d) (h1 : d < 1) :
    ∃ j, bucket? (d * total (eligible a)) zero (eligible a) = some j := by
  have hmass := mass_pos h
  rw [total_eligible]
  refine exists_bucket? ?_ (mul_nonneg h0 hmass.le)
  have hsum : ((eligible a).map Prod.snd).sum = a.mass := by
    rw [← total_eligible, total, sum_rat]
  rw [hsum, zero_rat, zero_add]
  exact mul_lt_of_lt_one_left hmass h1

section One
variable (limit : ℕ) (source : Source) (env : Environment ℚ)

theorem one_eq_getElem? (h : eligible a ≠ []) :
    ((weighted limit a).one source env).1 =
      (eligible a)[pick (eligible a) (source.draw env.draws).1]?.map Prod.fst := by
  simp only [weighted, draw_eq signs_rat h pos_of_mem_eligible, Option.bind_some]

theorem one_eq_none_iff :
    ((weighted limit a).one source env).1 = none ↔ ¬ ∃ x ∈ a.trust.entries, 0 < x := by
  rw [← eligible_ne_nil_iff]
  by_cases h : eligible a = []
  · simp [weighted, h, draw_nil]
  · have hlt := pick_lt h (source.draw env.draws).1
    rw [one_eq_getElem? limit source env h, List.getElem?_eq_getElem hlt]
    simp [h]

/-- **A peer is chosen by the draws in its part**, if it has one. -/
theorem one_eq_some_iff (hi : a.toList[i]? = some (p, x)) (h0 : 0 ≤ (source.draw env.draws).1)
    (h1 : (source.draw env.draws).1 < 1) :
    ((weighted limit a).one source env).1 = some p ↔ 0 < x ∧
      a.before i ≤ (source.draw env.draws).1 * a.mass ∧
      (source.draw env.draws).1 * a.mass < a.before (i + 1) := by
  by_cases hne : eligible a = []
  · refine iff_of_false (by simp [weighted, hne, draw_nil]) fun h => ?_
    have hmem : x ∈ a.trust.entries := by
      rw [← a.map_snd_toList]
      exact List.mem_map_of_mem (List.mem_of_getElem? hi)
    exact eligible_ne_nil_iff.mpr ⟨x, hmem, h.1⟩ hne
  · obtain ⟨j, hj⟩ := exists_bucket?_eligible hne h0 h1
    have hpick : pick (eligible a) (source.draw env.draws).1 = j := by
      unfold pick
      rw [hj]
      rfl
    rw [one_eq_getElem? limit source env hne, hpick]
    constructor
    · intro h
      obtain ⟨⟨q, y⟩, hy, rfl⟩ := Option.map_eq_some_iff.mp h
      obtain ⟨k, hk, hpos, hrank⟩ := exists_getElem?_of_filter hy
      obtain rfl := Assessment.eq_of_getElem? hi hk rfl
      cases hi.symm.trans hk
      have hx : 0 < x := by simpa using hpos
      rw [← hrank] at hj
      exact ⟨hx, (bucket?_eq_rank_iff hi hx h0).mp hj⟩
    · rintro ⟨hx, hd⟩
      have hrank : j = rank a i :=
        Option.some.inj (hj.symm.trans ((bucket?_eq_rank_iff hi hx h0).mpr hd))
      rw [hrank, getElem?_eligible hi hx, Option.map_some]

end One

/-- The draws from `[0, 1)` for which a peer is chosen. -/
def hits (limit : ℕ) (a : Assessment ℚ) (env : Environment ℚ) (p : Peer) : Set ℚ :=
  {d | 0 ≤ d ∧ d < 1 ∧
    ((weighted limit a).one .script { env with draws := .ofList [d] }).1 = some p}

theorem hits_eq_part (limit : ℕ) (env : Environment ℚ) (hi : a.toList[i]? = some (p, x))
    (hx : 0 < x) : hits limit a env p = a.part i := by
  have hm := mass_pos_of_getElem? hi hx
  ext d
  constructor
  · rintro ⟨h0, h1, hone⟩
    have hdraw := one_eq_some_iff limit .script { env with draws := .ofList [d] } hi h0 h1
    exact (Assessment.mem_part_iff hm).mpr (hdraw.mp hone).2
  · intro hd
    obtain ⟨h0, h1⟩ := Assessment.part_subset hm i hd
    have hdraw := one_eq_some_iff limit .script { env with draws := .ofList [d] } hi h0 h1
    exact ⟨h0, h1, hdraw.mpr ⟨hx, (Assessment.mem_part_iff hm).mp hd⟩⟩

/-- **Each draw from `[0, 1)` is in the part of one position of positive trust.** -/
theorem existsUnique_part (h : ∃ x ∈ a.trust.entries, 0 < x) (h0 : 0 ≤ d) (h1 : d < 1) :
    ∃! i, i ∈ a.positives ∧ d ∈ a.part i := by
  have hne := eligible_ne_nil_iff.mpr h
  have hm := mass_pos hne
  obtain ⟨j, hj⟩ := exists_bucket?_eligible hne h0 h1
  obtain ⟨i, hi, hpos, hrank⟩ :=
    exists_getElem?_of_filter (List.getElem?_eq_getElem (bucket?_lt hj))
  have hx := by simpa using hpos
  refine ⟨i, ⟨Assessment.mem_positives.mpr ⟨_, hi, hpos⟩, ?_⟩, ?_⟩
  · rw [← hrank] at hj
    exact (Assessment.mem_part_iff hm).mpr ((bucket?_eq_rank_iff hi hx h0).mp hj)
  · rintro k ⟨hk, hd⟩
    obtain ⟨⟨q, y⟩, hk, hy⟩ := Assessment.mem_positives.mp hk
    have hy : 0 < y := by simpa using hy
    have hkj : j = rank a k := Option.some.inj
      (hj.symm.trans ((bucket?_eq_rank_iff hk hy h0).mpr ((Assessment.mem_part_iff hm).mp hd)))
    have hsame : (eligible a)[j]? = some (q, y) := by rw [hkj, getElem?_eligible hk hy]
    rw [List.getElem?_eq_getElem (bucket?_lt hj)] at hsame
    exact Assessment.eq_of_getElem? hk hi (congrArg Prod.fst (Option.some.inj hsame)).symm

/-! ### The selector -/

/-- **A choice in proportion to trust**: no peer exactly if none is trusted, otherwise the peer at
whose position the draw lies between the sums of the positive trust. The draws for a peer are an
interval as long as its part of the trust, the intervals are a partition of `[0, 1)`, and each draw
finds a place without the way out for rounding. -/
structure Proportional (limit : ℕ) (a : Assessment ℚ) : Prop where
  none_iff : ∀ source env,
    ((weighted limit a).one source env).1 = none ↔ ¬ ∃ x ∈ a.trust.entries, 0 < x
  some_iff : ∀ source env i p x, a.toList[i]? = some (p, x) →
    0 ≤ (source.draw env.draws).1 → (source.draw env.draws).1 < 1 →
    (((weighted limit a).one source env).1 = some p ↔ 0 < x ∧
      a.before i ≤ (source.draw env.draws).1 * a.mass ∧
      (source.draw env.draws).1 * a.mass < a.before (i + 1))
  hits_eq : ∀ env i p x, a.toList[i]? = some (p, x) → 0 < x → hits limit a env p = a.part i
  length_eq : ∀ i p x, a.toList[i]? = some (p, x) → 0 < x →
    a.before (i + 1) / a.mass - a.before i / a.mass = x / a.mass
  part_subset : ∀ i ∈ a.positives, a.part i ⊆ Set.Ico 0 1
  partition : (∃ x ∈ a.trust.entries, 0 < x) → ∀ d ∈ Set.Ico (0 : ℚ) 1,
    ∃! i, i ∈ a.positives ∧ d ∈ a.part i
  found : (∃ x ∈ a.trust.entries, 0 < x) → ∀ d ∈ Set.Ico (0 : ℚ) 1,
    (bucket? (d * total (eligible a)) zero (eligible a)).isSome = true

/-- **A single peer is chosen in proportion to trust.** -/
theorem one_proportional (limit : ℕ) (a : Assessment ℚ) : Proportional limit a where
  none_iff := one_eq_none_iff limit
  some_iff source env _ _ _ hi h0 h1 := one_eq_some_iff limit source env hi h0 h1
  hits_eq env _ _ _ hi hx := hits_eq_part limit env hi hx
  length_eq i p x hi hx := by
    rw [← sub_div, Assessment.before_add_one hi hx, add_sub_cancel_left]
  part_subset i hi := by
    obtain ⟨⟨p, x⟩, hi, hx⟩ := Assessment.mem_positives.mp hi
    exact Assessment.part_subset (mass_pos_of_getElem? hi (by simpa using hx)) i
  partition h _ hd := existsUnique_part h hd.1 hd.2
  found h _ hd := by
    obtain ⟨j, hj⟩ := exists_bucket?_eligible (eligible_ne_nil_iff.mpr h) hd.1 hd.2
    rw [hj]
    rfl

/-- A draw on the boundary between two parts is for the second one. -/
example :
    let a : Assessment ℚ := ⟨Context.trio (.ofList []), ⟨[1 / 2, -1, 1 / 4]⟩, rfl⟩
    ((weighted 1 a).one .script ⟨fun _ => .empty, default, default, .ofList [2 / 3], []⟩).1 =
      some (.named "m") := by
  decide +kernel

end Selector

end Reputation
