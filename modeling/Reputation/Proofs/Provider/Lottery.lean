import Mathlib.Algebra.Order.Floor.Ring
import Mathlib.Data.List.Permutation
import Mathlib.Data.Rat.Floor
import Mathlib.Data.Set.Card
import Mathlib.Tactic.Linarith
import Reputation.Proofs.Provider.Composition

/-! # A fair lottery for the free places

The free places of a truncation are filled by draws: a draw points at a position among the candidates
that are left, and the last candidate takes the place of the one who is drawn. So draws become a
sequence of positions, `Source.positions`, and this becomes a sequence of peers, `Truncation.pull`
(`Truncation.fill_eq_pull`).

The first step gives every sequence of positions the same part of all draws: each position of `n` has
the draws in an interval of length `1 / n` (`Source.position_eq_iff`). The second step is a bijection
onto the ordered selections of distinct candidates, by induction on the number of places, although
the list of candidates changes its order with each draw (`Truncation.bijOn_pull`). As many sequences
lead to each set of peers as there are orders of it, so all of them have the same chance:
`Truncation.fill_fair`. -/

namespace Reputation

open Number
open scoped Nat

namespace Source

/-! ### From draws to positions -/

section Values
variable {K : Type} [Number K]

/-- The next values that are drawn. -/
def values : ℕ → Source × Draws K → List K
  | 0, _ => []
  | n + 1, s => (s.1.draw s.2).1 :: values n (s.1.draw s.2).2

/-- The positions that values point at, in a list of `m` elements that loses one each time. -/
def positions : ℕ → List K → List ℕ
  | _, [] => []
  | m, x :: xs => position x m :: positions (m - 1) xs

theorem position_lt {m : ℕ} (h : 0 < m) (x : K) : position x m < m := by
  unfold position
  omega

/-- **A script gives its values**, as long as it has any. -/
theorem values_script (xs : List K) (taken : ℕ) : values xs.length (script, ⟨xs, taken⟩) = xs := by
  induction xs generalizing taken with
  | nil => rfl
  | cons x xs ih =>
    cases xs with
    | nil => rfl
    | cons y ys => exact congrArg (x :: ·) (ih (taken + 1))

end Values

/-- The draws for a position among `n`: a part of `[0, 1)` of length `1 / n`. -/
def share (n i : ℕ) : Set ℚ := Set.Ico (i / n : ℚ) ((i + 1) / n)

theorem share_subset {n i : ℕ} (h : i < n) : share n i ⊆ Set.Ico 0 1 := by
  have hn : (0 : ℚ) < n := by exact_mod_cast (Nat.zero_le i).trans_lt h
  have hi : (i : ℚ) + 1 ≤ n := by exact_mod_cast h
  rintro x ⟨hlow, hhigh⟩
  exact ⟨(div_nonneg (Nat.cast_nonneg i) hn.le).trans hlow, hhigh.trans_le ((div_le_one₀ hn).mpr hi)⟩

theorem mem_share_self {n i : ℕ} (h : i < n) : (i / n : ℚ) ∈ share n i := by
  have hn : (0 : ℚ) < n := by exact_mod_cast (Nat.zero_le i).trans_lt h
  exact ⟨le_rfl, div_lt_div_of_pos_right (lt_add_one _) hn⟩

/-- **A draw points at a position if it is in its share**, for lists of which every position is a
64-bit count. -/
theorem position_eq_iff {x : ℚ} (hx : x ∈ Set.Ico 0 1) {n i : ℕ} (hi : i < n)
    (hn : n ≤ UInt64.size) : position x n = i ↔ x ∈ share n i := by
  have hpos : (0 : ℚ) < n := by exact_mod_cast (Nat.zero_le i).trans_lt hi
  have hlt : x * n < n := mul_lt_of_lt_one_left hpos hx.2
  have hfloor : ⌊x * n⌋.toNat < n := by
    have hle : (⌊x * n⌋ : ℚ) ≤ x * n := Int.floor_le _
    have h : (⌊x * n⌋ : ℚ) < (n : ℤ) := hle.trans_lt (by exact_mod_cast hlt)
    have h' : ⌊x * n⌋ < (n : ℤ) := by exact_mod_cast h
    omega
  have hwhole : whole (x * n) = ⌊x * n⌋.toNat := by
    change min ⌊x * n⌋.toNat greatestCount = _
    unfold greatestCount
    omega
  have hnonneg : 0 ≤ ⌊x * n⌋ := Int.floor_nonneg.mpr (mul_nonneg hx.1 hpos.le)
  have hposition : position x n = i ↔ ⌊x * n⌋ = (i : ℤ) := by
    unfold position
    rw [ofNat_rat, hwhole]
    omega
  rw [hposition, Int.floor_eq_iff, Int.cast_natCast, share, Set.mem_Ico, div_le_iff₀ hpos,
    lt_div_iff₀ hpos]

end Source

namespace Truncation

/-! ### From positions to peers -/

/-- **The peers at some positions** of a list in which the last peer takes the place of each one that
is taken out. -/
def pull : List Peer → List ℕ → List Peer
  | _, [] => []
  | ps, i :: is =>
    match ps[i]? with
    | some p => p :: pull (swapRemove ps i) is
    | none => []

/-- **The sequences of positions** for `k` draws from `m` peers: the first one is below `m`, and there
is one peer less for each one that follows. -/
def Tickets (m k : ℕ) : Set (List ℕ) := {is | is.length = k ∧ ∀ j i, is[j]? = some i → i < m - j}

/-- **The ordered selections** of `k` distinct peers of a list. -/
def Arrangements (ps : List Peer) (k : ℕ) : Set (List Peer) :=
  {qs | qs.length = k ∧ Peer.Distinct qs ∧ qs ⊆ ps}

section Pull
variable {ps qs : List Peer} {is : List ℕ} {p : Peer} {i m k : ℕ}

theorem pull_cons (h : ps[i]? = some p) : pull ps (i :: is) = p :: pull (swapRemove ps i) is := by
  rw [pull, h]

theorem tickets_zero : Tickets m 0 = {[]} := by
  ext is
  constructor
  · exact fun h => List.length_eq_zero_iff.mp h.1
  · rintro rfl
    exact ⟨rfl, fun j i hj => by cases hj⟩

theorem cons_mem_tickets : i :: is ∈ Tickets m (k + 1) ↔ i < m ∧ is ∈ Tickets (m - 1) k := by
  constructor
  · rintro ⟨hl, h⟩
    refine ⟨h 0 i rfl, Nat.succ.inj hl, fun j x hx => ?_⟩
    have hlt := h (j + 1) x hx
    omega
  · rintro ⟨hi, hl, h⟩
    refine ⟨congrArg (· + 1) hl, fun j x hx => ?_⟩
    cases j with
    | zero =>
      obtain rfl := Option.some.inj hx
      exact hi
    | succ j =>
      have hlt := h j x hx
      omega

theorem exists_cons_of_mem_tickets (h : is ∈ Tickets m (k + 1)) :
    ∃ i js, is = i :: js ∧ i < m ∧ js ∈ Tickets (m - 1) k := by
  obtain ⟨i, js, rfl⟩ := List.exists_cons_of_length_eq_add_one h.1
  exact ⟨i, js, rfl, cons_mem_tickets.mp h⟩

theorem replicate_mem_tickets (h : k ≤ m) : List.replicate k 0 ∈ Tickets m k := by
  refine ⟨List.length_replicate, fun j i hj => ?_⟩
  obtain ⟨hlt, rfl⟩ := List.getElem?_eq_some_iff.mp hj
  rw [List.length_replicate] at hlt
  rw [List.getElem_replicate]
  omega

theorem arrangements_zero : Arrangements ps 0 = {[]} := by
  ext qs
  constructor
  · exact fun h => List.length_eq_zero_iff.mp h.1
  · rintro rfl
    exact ⟨rfl, List.nodup_nil, List.nil_subset _⟩

theorem mem_arrangements_of_perm {rs : List Peer} (h : qs ∈ Arrangements ps k) (hr : rs.Perm qs) :
    rs ∈ Arrangements ps k :=
  ⟨hr.length_eq.trans h.1, (hr.map Peer.id).nodup_iff.mpr h.2.1, List.Subset.trans hr.subset h.2.2⟩

section Distinct
variable (hd : Peer.Distinct ps)
include hd

theorem distinct_swapRemove (h : ps[i]? = some p) :
    p.id ∉ (swapRemove ps i).map Peer.id ∧ Peer.Distinct (swapRemove ps i) :=
  List.nodup_cons.mp (((swapRemove_perm h).map Peer.id).nodup_iff.mpr hd)

/-- An ordered selection goes on among the peers who are left. -/
theorem cons_mem_arrangements (h : ps[i]? = some p) :
    p :: qs ∈ Arrangements ps (k + 1) ↔ qs ∈ Arrangements (swapRemove ps i) k := by
  have hperm := swapRemove_perm h
  constructor
  · rintro ⟨hl, hdq, hsub⟩
    obtain ⟨hp, hdq⟩ := List.nodup_cons.mp hdq
    refine ⟨Nat.succ.inj hl, hdq, fun q hq => ?_⟩
    have hmem := hperm.symm.subset (hsub (List.mem_cons_of_mem p hq))
    refine (List.mem_cons.mp hmem).resolve_left ?_
    rintro rfl
    exact hp (List.mem_map_of_mem hq)
  · rintro ⟨hl, hdq, hsub⟩
    obtain ⟨hp, -⟩ := distinct_swapRemove hd h
    refine ⟨congrArg (· + 1) hl, List.nodup_cons.mpr ⟨fun hq => ?_, hdq⟩, fun q hq => ?_⟩
    · exact hp (List.map_subset Peer.id hsub hq)
    · exact hperm.subset (List.cons_subset_cons p hsub hq)

/-- **Sequences of positions are ordered selections**: each selection comes from exactly one. -/
theorem bijOn_pull (k : ℕ) : Set.BijOn (pull ps) (Tickets ps.length k) (Arrangements ps k) := by
  induction k generalizing ps with
  | zero =>
    rw [tickets_zero, arrangements_zero]
    exact Set.bijOn_singleton.mpr rfl
  | succ k ih =>
    -- a first position and a first peer determine each other, and the rest is about what is left
    have hleft : ∀ {i}, i < ps.length → Set.BijOn (pull (swapRemove ps i))
        (Tickets (ps.length - 1) k) (Arrangements (swapRemove ps i) k) := by
      intro i hi
      have hl := length_swapRemove hi
      have hlen : (swapRemove ps i).length = ps.length - 1 := by omega
      rw [← hlen]
      exact ih (distinct_swapRemove hd (List.getElem?_eq_getElem hi)).2
    refine ⟨?maps, ?inj, ?surj⟩
    case maps =>
      intro is h
      obtain ⟨i, is, rfl, hi, his⟩ := exists_cons_of_mem_tickets h
      have hp := List.getElem?_eq_getElem hi
      rw [pull_cons hp]
      exact (cons_mem_arrangements hd hp).mpr ((hleft hi).mapsTo his)
    case inj =>
      intro is h js h' he
      obtain ⟨i, is, rfl, hi, his⟩ := exists_cons_of_mem_tickets h
      obtain ⟨j, js, rfl, hj, hjs⟩ := exists_cons_of_mem_tickets h'
      rw [pull_cons (List.getElem?_eq_getElem hi), pull_cons (List.getElem?_eq_getElem hj)] at he
      obtain ⟨hhead, htail⟩ := List.cons.inj he
      obtain rfl := (List.Nodup.of_map Peer.id hd).getElem_inj_iff.mp hhead
      rw [(hleft hi).injOn his hjs htail]
    case surj =>
      intro qs h
      obtain ⟨q, qs, rfl⟩ := List.exists_cons_of_length_eq_add_one h.1
      obtain ⟨i, hq⟩ := List.getElem?_of_mem (h.2.2 List.mem_cons_self)
      obtain ⟨hi, -⟩ := List.getElem?_eq_some_iff.mp hq
      obtain ⟨is, his, rfl⟩ := (hleft hi).surjOn ((cons_mem_arrangements hd hq).mp h)
      exact ⟨i :: is, cons_mem_tickets.mpr ⟨hi, his⟩, pull_cons hq⟩

/-- **As many sequences of positions lead to some peers** as there are orders of them. -/
theorem ncard_tickets_perm (h : qs ∈ Arrangements ps k) :
    {is ∈ Tickets ps.length k | (pull ps is).Perm qs}.ncard = k ! := by
  have hbij := bijOn_pull hd k
  have himage : pull ps '' {is ∈ Tickets ps.length k | (pull ps is).Perm qs} =
      qs.permutations.toFinset := by
    ext rs
    simp only [List.coe_toFinset, List.mem_permutations, Set.mem_ofPred_eq]
    constructor
    · rintro ⟨is, his, rfl⟩
      exact his.2
    · intro hr
      obtain ⟨is, his, rfl⟩ := hbij.surjOn (mem_arrangements_of_perm h hr)
      exact ⟨is, ⟨his, hr⟩, rfl⟩
  have hnodup : qs.permutations.Nodup :=
    List.nodup_permutations qs (List.Nodup.of_map Peer.id h.2.1)
  rw [← (hbij.injOn.mono fun is his => his.1).ncard_image, himage, Set.ncard_coe_finset,
    List.toFinset_card_of_nodup hnodup, List.length_permutations, h.1]

end Distinct

end Pull

/-! ### From draws to peers -/

section Fill
variable {K : Type} [Number K] {ps : List Peer} {m k : ℕ}

/-- **The free places are filled by the positions** that the drawn values point at. -/
theorem fill_eq_pull (k : ℕ) (ps : List Peer) (source : Source) (draws : Draws K) :
    (fill source draws k ps).1 =
      pull ps (Source.positions ps.length (Source.values k (source, draws))) := by
  induction k generalizing ps source draws with
  | zero => rfl
  | succ k ih =>
    unfold fill Source.values Source.positions Source.index
    cases hp : ps[Source.position (source.draw draws).1 ps.length]? with
    | none => simp only [pull, hp]
    | some p =>
      obtain ⟨hi, -⟩ := List.getElem?_eq_some_iff.mp hp
      have hl := length_swapRemove hi
      rw [pull_cons hp, ← Nat.eq_sub_of_add_eq hl, ← ih]
      simp only [hp]

theorem positions_mem_tickets {xs : List K} (h : xs.length ≤ m) :
    Source.positions m xs ∈ Tickets m xs.length := by
  induction xs generalizing m with
  | nil =>
    rw [List.length_nil, tickets_zero]
    rfl
  | cons x xs ih =>
    rw [List.length_cons] at h
    exact cons_mem_tickets.mpr ⟨Source.position_lt (by omega) x, ih (by omega)⟩

/-- **Every sequence of positions has its part of the draws**, a box with a share of each list as its
side. -/
theorem positions_eq_iff {xs : List ℚ} (hx : ∀ x ∈ xs, x ∈ Set.Ico 0 1) {is : List ℕ}
    (h : is ∈ Tickets m xs.length) (hm : m ≤ UInt64.size) : Source.positions m xs = is ↔
      ∀ j x i, xs[j]? = some x → is[j]? = some i → x ∈ Source.share (m - j) i := by
  induction xs generalizing m is with
  | nil =>
    rw [List.length_nil, tickets_zero, Set.mem_singleton_iff] at h
    subst h
    exact iff_of_true rfl fun j x i hj => by cases hj
  | cons x xs ih =>
    obtain ⟨i, is, rfl, hi, his⟩ := exists_cons_of_mem_tickets h
    have hrest := ih (fun y hy => hx y (List.mem_cons_of_mem x hy)) his (by omega)
    rw [Source.positions, List.cons.injEq,
      Source.position_eq_iff (hx x List.mem_cons_self) hi hm, hrest]
    constructor
    · rintro ⟨hfirst, hlater⟩ j y l hy hl
      cases j with
      | zero =>
        cases hy
        cases hl
        exact hfirst
      | succ j =>
        rw [Nat.add_comm, ← Nat.sub_sub]
        exact hlater j y l hy hl
    · refine fun hall => ⟨hall 0 x i rfl rfl, fun j y l hy hl => ?_⟩
      rw [Nat.sub_sub, Nat.add_comm]
      exact hall (j + 1) y l hy hl

/-- **Every sequence of positions is drawn.** -/
theorem exists_positions_eq {is : List ℕ} (h : is ∈ Tickets m k) (hm : m ≤ UInt64.size) :
    ∃ xs : List ℚ, xs.length = k ∧ (∀ x ∈ xs, x ∈ Set.Ico 0 1) ∧ Source.positions m xs = is := by
  induction k generalizing m is with
  | zero =>
    rw [tickets_zero, Set.mem_singleton_iff] at h
    exact ⟨[], rfl, List.forall_mem_nil _, h.symm⟩
  | succ k ih =>
    obtain ⟨i, is, rfl, hi, his⟩ := exists_cons_of_mem_tickets h
    obtain ⟨xs, hl, hx, rfl⟩ := ih his (by omega)
    have hshare := Source.mem_share_self hi
    have hunit := Source.share_subset hi hshare
    refine ⟨i / m :: xs, congrArg (· + 1) hl, List.forall_mem_cons.mpr ⟨hunit, hx⟩, ?_⟩
    rw [Source.positions, (Source.position_eq_iff hunit hi hm).mpr hshare]

end Fill

/-- **Fair draws** of `k` peers of a list. The draws make a sequence of positions, and it makes an
ordered selection; each selection comes from exactly one sequence. Every sequence is drawn, each by
its own box of draws with the sides `1 / m`, `1 / (m - 1)` and so on for a list of `m` peers, where
`m` is a 64-bit count as in memory. For any `k` peers there are as many sequences as for any others,
and no peer is left out by all. -/
structure Fair (ps : List Peer) (k : ℕ) : Prop where
  fill_eq : ∀ source (draws : Draws ℚ), (fill source draws k ps).1 =
    pull ps (Source.positions ps.length (Source.values k (source, draws)))
  mem_tickets : ∀ xs : List ℚ, xs.length = k → Source.positions ps.length xs ∈ Tickets ps.length k
  bijOn : Set.BijOn (pull ps) (Tickets ps.length k) (Arrangements ps k)
  drawn : ps.length ≤ UInt64.size → ∀ is ∈ Tickets ps.length k, ∃ xs : List ℚ,
    (∀ x ∈ xs, x ∈ Set.Ico 0 1) ∧ Source.values k (.script, .ofList xs) = xs ∧
      Source.positions ps.length xs = is
  box : ps.length ≤ UInt64.size → ∀ is ∈ Tickets ps.length k, ∀ xs : List ℚ, xs.length = k →
    (∀ x ∈ xs, x ∈ Set.Ico 0 1) → (Source.positions ps.length xs = is ↔
      ∀ j x i, xs[j]? = some x → is[j]? = some i → x ∈ Source.share (ps.length - j) i)
  ncard_eq : ∀ qs ∈ Arrangements ps k,
    {is ∈ Tickets ps.length k | (pull ps is).Perm qs}.ncard = (k !)
  reached : 0 < k → ∀ p ∈ ps, ∃ is ∈ Tickets ps.length k, p ∈ pull ps is

/-- **Free places are filled fairly** from distinct candidates. -/
theorem fill_fair {ps : List Peer} (hd : Peer.Distinct ps) {k : ℕ} (hk : k ≤ ps.length) :
    Fair ps k where
  fill_eq := fill_eq_pull k ps
  mem_tickets xs hl := by
    rw [← hl] at hk ⊢
    exact positions_mem_tickets hk
  bijOn := bijOn_pull hd k
  drawn hm is his := by
    obtain ⟨xs, hl, hx, hpos⟩ := exists_positions_eq his hm
    rw [← hl]
    exact ⟨xs, hx, Source.values_script xs 0, hpos⟩
  box hm is his xs hl hx := by
    rw [← hl] at his
    exact positions_eq_iff hx his hm
  ncard_eq qs hqs := ncard_tickets_perm hd hqs
  reached h p hp := by
    obtain ⟨k, rfl⟩ := Nat.exists_eq_succ_of_ne_zero h.ne'
    obtain ⟨i, hi⟩ := List.getElem?_of_mem hp
    obtain ⟨hlt, -⟩ := List.getElem?_eq_some_iff.mp hi
    refine ⟨i :: List.replicate k 0, cons_mem_tickets.mpr ⟨hlt, ?_⟩, ?_⟩
    · exact replicate_mem_tickets (Nat.le_sub_one_of_lt hk)
    · rw [pull_cons hi]
      exact List.mem_cons_self

/-- Two of three peers: the last one takes the place of the first, who is drawn. -/
theorem fill_fair_three :
    let ps := ["a", "b", "c"].map Peer.named
    Peer.Distinct ps ∧ 2 ≤ ps.length ∧ Fair ps 2 ∧
      (fill .script (.ofList [(0 : ℚ), 1 / 4]) 2 ps).1 = [.named "a", .named "c"] ∧
      {is ∈ Tickets 3 2 | (pull ps is).Perm [.named "c", .named "a"]}.ncard = 2 := by
  intro ps
  have hd : Peer.Distinct ps := by decide
  have hfair := fill_fair hd (k := 2) (by decide)
  have hca : [.named "c", .named "a"] ∈ Arrangements ps 2 := ⟨rfl, by decide, by decide⟩
  exact ⟨hd, by decide, hfair, by decide +kernel, hfair.ncard_eq _ hca⟩

end Truncation

end Reputation
