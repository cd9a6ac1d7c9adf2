import Reputation.Proofs.Context
import Reputation.Proofs.Provider.Serving
import Reputation.Provider.Masked

/-! # Masked trust

A mask takes all trust from the peers whom it does not admit. What the others had is scaled; if they
had nothing, they share evenly. So their trust sums up to one again if there is one of them
(`sum_maskedValue`), and the rest has none (`maskedValue_eq_zero`). -/

namespace Reputation

open Number

namespace Provider

/-! ### The mask as a function of a peer -/

section Tabulated
variable {K : Type} [Number K]

/-- The trust `f` of the admitted peers. -/
def left (m : Peer → Bool) (f : Peer → K) (p : Peer) : K := if m p then f p else zero

/-- **The trust in a peer behind a mask.** -/
def maskedValue (ps : List Peer) (m : Peer → Bool) (f : Peer → K) (p : Peer) : K :=
  match ps.countP m with
  | 0 => left m f p
  | n =>
    if eq (Number.sum (ps.map fun q => Number.abs (left m f q))) zero then
      if m p then one / ofNat n else left m f p
    else Vec.scaled ps (left m f) p

theorem maskedTrust_tabulate (ps : List Peer) (m : Peer → Bool) (f : Peer → K) :
    maskedTrust (ps.map m) (Vec.tabulate ps f) = Vec.tabulate ps (maskedValue ps m f) := by
  have hl : (⟨List.zipWith (fun k x => if k then x else zero) (ps.map m)
      (Vec.tabulate ps f).entries⟩ : Vec K) = Vec.tabulate ps (left m f) := by
    simp [Vec.tabulate, left, List.zipWith_map, List.zipWith_self]
  have hc : (ps.map m).count true = ps.countP m := by
    rw [List.count_eq_countP, List.countP_map]
    exact List.countP_congr fun p _ => by simp
  unfold maskedTrust maskedValue
  simp only [hl, hc]
  cases ps.countP m with
  | zero => rfl
  | succ n =>
    simp only [Vec.absSum, Vec.entries_tabulate, List.map_map, Function.comp_def]
    split
    · simp [Vec.tabulate, left, List.zipWith_map, List.zipWith_self]
    · exact Vec.normalize_tabulate ps (left m f)

/-- **Peers who are not admitted have no positive trust**, with rounding as well. -/
theorem maskedValue_not_pos (hK : Signs K) (ps : List Peer) {m : Peer → Bool} (f : Peer → K)
    {p : Peer} (hm : m p = false) : lt zero (maskedValue ps m f p) = false := by
  have hl : left m f p = zero := if_neg (Bool.eq_false_iff.mp hm)
  have hleft : lt zero (left m f p) = false := by rw [hl]; exact hK.zero_not_pos
  unfold maskedValue
  split
  · exact hleft
  · split
    · rw [hm]
      exact hleft
    · unfold Vec.scaled
      dsimp only
      split
      · next hpos =>
        rw [hl]
        exact hK.zero_div_not_pos _ hpos
      · exact hleft

end Tabulated

/-! ### What is left -/

section Exact
variable {ps : List Peer} {m : Peer → Bool} {f : Peer → ℚ}

theorem left_eq_zero {p : Peer} (hm : m p = false) : left m f p = 0 := by
  unfold left
  rw [hm]
  rfl

/-- **Peers who are not admitted have no trust.** -/
theorem maskedValue_eq_zero (ps : List Peer) {p : Peer} (hm : m p = false) :
    maskedValue ps m f p = 0 := by
  have hl : left m f p = 0 := left_eq_zero hm
  unfold maskedValue
  split
  · exact hl
  · split
    · rw [hm]; exact hl
    · exact Vec.scaled_eq_zero ps hl

variable (hf : ∀ p ∈ ps, 0 ≤ f p)
include hf

theorem left_nonneg : ∀ p ∈ ps, 0 ≤ left m f p := by
  intro p hp
  unfold left
  split_ifs
  · exact hf p hp
  · exact le_rfl

/-- Trust is scaled where there is some left, and shared evenly otherwise. -/
theorem maskedValue_eq (h : ∃ p ∈ ps, m p = true) (p : Peer) :
    maskedValue ps m f p =
      if (ps.map (left m f)).sum = 0 then if m p then 1 / (ps.countP m : ℚ) else 0
      else Vec.scaled ps (left m f) p := by
  have hn : ps.countP m ≠ 0 := (List.countP_pos_iff.mpr h).ne'
  have hl : ∀ q ∈ ps, 0 ≤ left m f q := left_nonneg hf
  obtain ⟨n, hc⟩ := Nat.exists_eq_succ_of_ne_zero hn
  unfold maskedValue
  simp only [hc, abs_rat, sum_rat, eq_rat, zero_rat, one_rat, ofNat_rat, decide_eq_true_eq]
  rw [sum_map_abs hl]
  cases hm : m p with
  | true => rfl
  | false => rw [left_eq_zero hm]

theorem maskedValue_nonneg : ∀ p ∈ ps, 0 ≤ maskedValue ps m f p := by
  intro p hp
  by_cases h : ∃ p ∈ ps, m p = true
  · rw [maskedValue_eq hf h]
    split_ifs
    · positivity
    · exact le_rfl
    · exact Vec.scaled_nonneg (left_nonneg hf) p hp
  · have hm : m p = false := Bool.eq_false_iff.mpr fun hm => h ⟨p, hp, hm⟩
    exact (maskedValue_eq_zero ps hm).ge

/-- **Admitted peers share all trust**, if there are any. -/
theorem sum_maskedValue (h : ∃ p ∈ ps, m p = true) : (ps.map (maskedValue ps m f)).sum = 1 := by
  have hn : ps.countP m ≠ 0 := (List.countP_pos_iff.mpr h).ne'
  have hl : ∀ q ∈ ps, 0 ≤ left m f q := left_nonneg hf
  rw [funext (maskedValue_eq hf h)]
  by_cases h0 : (ps.map (left m f)).sum = 0
  · simp only [if_pos h0]
    rw [sum_map_ite]
    exact mul_one_div_cancel (by exact_mod_cast hn)
  · simp only [if_neg h0]
    have hpos : 0 < (ps.map (left m f)).sum := lt_of_le_of_ne (sum_map_nonneg hl) (Ne.symm h0)
    exact (Vec.isDistribution_tabulate.mp (Vec.isDistribution_scaled hl hpos)).2

end Exact

/-! ### The provider -/

/-- Does the mask leave trust to a peer of a context? -/
def admitted (admits : Sighting → Bool) (roster : Roster) (c : Context) (p : Peer) : Bool :=
  keeps admits ⟨p, roster.status p, p.same c.home⟩

theorem map_keeps_all (admits : Sighting → Bool) (roster : Roster) (c : Context) :
    (Sighting.all roster c).map (keeps admits) = c.peers.map (admitted admits roster c) := by
  unfold Sighting.all
  rw [List.map_map]
  rfl

theorem admitted_home (admits : Sighting → Bool) (roster : Roster) {c : Context} {p : Peer}
    (h : p.id = c.home.id) : admitted admits roster c p = false := by
  have hp : p.same c.home = true := Peer.same_iff.mpr h
  unfold admitted keeps
  rw [hp, Bool.not_true, Bool.and_false]

/-- **The trust behind a mask**: none below zero, none for peers who are not admitted, and one in
sum if there is a peer who is. -/
structure Masks (m : Peer → Bool) (a : Assessment ℚ) : Prop where
  nonneg : ∀ p x, (p, x) ∈ a.toList → 0 ≤ x
  eq_zero : ∀ p x, (p, x) ∈ a.toList → m p = false → x = 0
  sum_eq_one : (∃ p ∈ a.context.peers, m p = true) → a.trust.sum = 1

theorem masks_of_eq {m : Peer → Bool} {a : Assessment ℚ} {f : Peer → ℚ}
    (hf : ∀ p ∈ a.context.peers, 0 ≤ f p)
    (h : a.trust = Vec.tabulate a.context.peers (maskedValue a.context.peers m f)) : Masks m a where
  nonneg := by
    intro p x hx
    obtain ⟨hp, rfl⟩ := (Assessment.mem_toList_iff h).mp hx
    exact maskedValue_nonneg hf p hp
  eq_zero := by
    intro p x hx hm
    obtain ⟨-, rfl⟩ := (Assessment.mem_toList_iff h).mp hx
    exact maskedValue_eq_zero _ hm
  sum_eq_one := by
    intro he
    rw [h, Vec.sum, sum_rat]
    exact sum_maskedValue hf he

variable {σ : Type}

section Answer
variable {K : Type} [Number K] {inner : Provider K σ} {c : Context} {own own' : σ}
  {env env' : Environment K}

theorem masked_of_error {f : Failure} (h : inner c own env = (.error f, own', env'))
    (admits : Sighting → Bool) : masked admits inner c own env = (.error f, own', env') := by
  unfold masked
  rw [h]

/-- **The answer behind a mask**, for the peers whom it admits. -/
theorem masked_eq {a : Assessment K} {f : Peer → K}
    (h : inner c own env = (.ok a, own', env')) (ha : a.trust = Vec.tabulate a.context.peers f)
    (admits : Sighting → Bool) {m : Peer → Bool}
    (hm : ∀ p ∈ a.context.peers, admitted admits env'.roster a.context p = m p) :
    masked admits inner c own env = (.ok ⟨a.context,
      Vec.tabulate a.context.peers (maskedValue a.context.peers m f),
      Vec.size_tabulate _ _⟩, own', env') := by
  unfold masked
  rw [h]
  simp only
  rw [map_keeps_all, List.map_congr_left hm, ha, maskedTrust_tabulate,
    Assessment.build_eq_ok (Vec.size_tabulate _ _)]
  rfl

end Answer

variable {inner : Provider ℚ σ} {asks admissible : Context → Prop} {inv : σ → Prop}

/-- **A mask over distributions** answers by the statuses at the time of the call. -/
theorem Serves.masked (h : inner.Serves asks inv fun _ => Assessment.Spreads admissible)
    (admits : Sighting → Bool) :
    (masked admits inner).Serves asks inv fun roster a =>
      admissible a.context ∧ Masks (admitted admits roster a.context) a := by
  intro c own env hc hfits hi
  obtain ⟨a, own', env', hp, hi', hr, hac, hd⟩ := h c own env hc hfits hi
  obtain ⟨f, hf⟩ := a.exists_tabulate
  have hnonneg : ∀ p ∈ a.context.peers, 0 ≤ f p := by
    rw [hf, Vec.isDistribution_tabulate] at hd
    exact hd.1
  have hm : ∀ p ∈ a.context.peers, admitted admits env'.roster a.context p =
      admitted admits env.roster a.context p := fun p _ => by rw [hr]
  exact ⟨_, own', env', masked_eq hp hf admits hm, hi', hr, hac, masks_of_eq hnonneg rfl⟩

end Provider

end Reputation
