import Reputation.Proofs.Provider.Masked

/-! # What the admitted peers share

A mask hands out all trust to the admitted peers: in the proportions of what they had, or evenly if
they had nothing (`Provider.Shares`). What was handed out is a distribution over them already, so
the same mask changes nothing when it is laid on again, whoever gives the masked assessment as an
answer: `Provider.masked_shares`. -/

namespace Reputation

open Number

/-- The trust in the peers of a kind. -/
def Assessment.within (a : Assessment ℚ) (m : Peer → Bool) : ℚ :=
  ((a.toList.filter fun x => m x.1).map Prod.snd).sum

theorem Assessment.within_eq {a : Assessment ℚ} {f : Peer → ℚ}
    (h : a.trust = Vec.tabulate a.context.peers f) (m : Peer → Bool) :
    a.within m = (a.context.peers.map (Provider.left m f)).sum := by
  unfold within
  rw [toList_eq h]
  induction a.context.peers with
  | nil => rfl
  | cons p ps ih =>
    cases hm : m p with
    | true => simp [hm, ih, Provider.left]
    | false => simp [hm, ih, Provider.left]

namespace Provider

/-! ### Values behind a mask -/

section Values
variable {ps : List Peer} {m : Peer → Bool} {f : Peer → ℚ} (hf : ∀ p ∈ ps, 0 ≤ f p)
include hf

/-- **Admitted peers keep the proportions of their trust**, if one of them has any. -/
theorem maskedValue_eq_div (h : (ps.map (left m f)).sum ≠ 0) {p : Peer} (hp : p ∈ ps)
    (hm : m p = true) : maskedValue ps m f p = f p / (ps.map (left m f)).sum := by
  rw [maskedValue_eq hf ⟨p, hp, hm⟩, if_neg h, Vec.scaled_eq_div (left_nonneg hf) hp, left, hm,
    if_pos rfl]

/-- **Admitted peers without trust share evenly.** -/
theorem maskedValue_eq_one_div (h : (ps.map (left m f)).sum = 0) {p : Peer} (hp : p ∈ ps)
    (hm : m p = true) : maskedValue ps m f p = 1 / (ps.countP m : ℚ) := by
  rw [maskedValue_eq hf ⟨p, hp, hm⟩, if_pos h, hm, if_pos rfl]

/-- **A mask that is laid on twice** does what it does once. -/
theorem maskedValue_maskedValue {p : Peer} (hp : p ∈ ps) :
    maskedValue ps m (maskedValue ps m f) p = maskedValue ps m f p := by
  cases hm : m p with
  | false => rw [maskedValue_eq_zero _ hm, maskedValue_eq_zero _ hm]
  | true =>
    have hleft : left m (maskedValue ps m f) = maskedValue ps m f := by
      funext q
      unfold left
      split
      · rfl
      · next hq => exact (maskedValue_eq_zero ps (Bool.eq_false_iff.mpr hq)).symm
    have hsum : (ps.map (left m (maskedValue ps m f))).sum = 1 := by
      rw [hleft, sum_maskedValue hf ⟨p, hp, hm⟩]
    rw [maskedValue_eq_div (maskedValue_nonneg hf) (hsum ▸ one_ne_zero) hp hm, hsum, div_one]

theorem sum_left_eq_zero_iff :
    (ps.map (left m f)).sum = 0 ↔ ∀ p ∈ ps, m p = true → f p = 0 := by
  constructor
  · intro h p hp hm
    have hle : left m f p ≤ 0 := h ▸ le_sum_map (left_nonneg hf) hp
    unfold left at hle
    rw [if_pos hm] at hle
    exact le_antisymm hle (hf p hp)
  · intro h
    refine List.sum_eq_zero fun x hx => ?_
    obtain ⟨p, hp, rfl⟩ := List.mem_map.mp hx
    cases hm : m p with
    | true => rw [left, if_pos hm, h p hp hm]
    | false => exact left_eq_zero hm

end Values

/-! ### The provider -/

/-- **The trust of an assessment shared out** among the peers of a kind: in the proportions of what
they had if one of them had any trust, and evenly otherwise; if there are no such peers, no one has
trust. -/
structure Shares (m : Peer → Bool) (a b : Assessment ℚ) : Prop extends Masks m b where
  context_eq : b.context = a.context
  eq_zero_of_none : ¬ (∃ p ∈ a.context.peers, m p = true) → ∀ p y, (p, y) ∈ b.toList → y = 0
  proportional : (∃ p x, (p, x) ∈ a.toList ∧ m p = true ∧ x ≠ 0) →
    ∀ p x y, (p, x) ∈ a.toList → (p, y) ∈ b.toList → m p = true → y = x / a.within m
  even : (∀ p x, (p, x) ∈ a.toList → m p = true → x = 0) →
    ∀ p y, (p, y) ∈ b.toList → m p = true → y = 1 / (a.context.peers.countP m : ℚ)

theorem shares_of_eq {m : Peer → Bool} {a b : Assessment ℚ} {f : Peer → ℚ}
    (hf : ∀ p ∈ a.context.peers, 0 ≤ f p) (ha : a.trust = Vec.tabulate a.context.peers f)
    (hc : b.context = a.context)
    (hb : b.trust = Vec.tabulate a.context.peers (maskedValue a.context.peers m f)) :
    Shares m a b := by
  have hbt : b.trust = Vec.tabulate b.context.peers (maskedValue b.context.peers m f) := by
    rw [hc, hb]
  have hbf : ∀ p ∈ b.context.peers, 0 ≤ f p := by rwa [hc]
  have hmem : ∀ {p y}, (p, y) ∈ b.toList →
      p ∈ a.context.peers ∧ y = maskedValue a.context.peers m f p := by
    intro p y hy
    rw [← hc]
    exact (Assessment.mem_toList_iff hbt).mp hy
  refine { masks_of_eq hbf hbt with
    context_eq := hc, eq_zero_of_none := ?none, proportional := ?proportional, even := ?even }
  case none =>
    intro hnone p y hy
    obtain ⟨hp, rfl⟩ := hmem hy
    exact maskedValue_eq_zero _ (Bool.eq_false_iff.mpr fun hm => hnone ⟨p, hp, hm⟩)
  case proportional =>
    rintro ⟨q, z, hz, hq, hz0⟩ p x y hx hy hm
    obtain ⟨hq', rfl⟩ := (Assessment.mem_toList_iff ha).mp hz
    obtain ⟨-, rfl⟩ := (Assessment.mem_toList_iff ha).mp hx
    obtain ⟨hp, rfl⟩ := hmem hy
    have hsum : (a.context.peers.map (left m f)).sum ≠ 0 := fun h =>
      hz0 ((sum_left_eq_zero_iff hf).mp h q hq' hq)
    rw [Assessment.within_eq ha, maskedValue_eq_div hf hsum hp hm]
  case even =>
    intro h0 p y hy hm
    obtain ⟨hp, rfl⟩ := hmem hy
    refine maskedValue_eq_one_div hf ((sum_left_eq_zero_iff hf).mpr fun q hq hmq => ?_) hp hm
    exact h0 q (f q) ((Assessment.mem_toList_iff ha).mpr ⟨hq, rfl⟩) hmq

/-- **A mask shares trust out among the admitted peers**, by the statuses that it sees, and changes
nothing when it is laid on again with the same statuses. -/
theorem masked_shares {σ : Type} {inner : Provider ℚ σ} {c : Context} {own own' : σ}
    {env env' : Environment ℚ} {a : Assessment ℚ} (h : inner c own env = (.ok a, own', env'))
    (ha : ∀ x ∈ a.trust.entries, 0 ≤ x)
    (admits : Sighting → Bool) :
    ∃ b, masked admits inner c own env = (.ok b, own', env') ∧
      Shares (admitted admits env'.roster a.context) a b ∧
      ∀ (τ : Type) (again : Provider ℚ τ) (x : Context) (s s' : τ) (e e' : Environment ℚ),
        again x s e = (.ok b, s', e') →
        (∀ p ∈ a.context.peers, e'.roster.status p = env'.roster.status p) →
        masked admits again x s e = (.ok b, s', e') := by
  obtain ⟨f, hf⟩ := a.exists_tabulate
  have hnonneg : ∀ p ∈ a.context.peers, 0 ≤ f p := by
    rw [hf, Vec.entries_tabulate] at ha
    exact fun p hp => ha (f p) (List.mem_map_of_mem hp)
  have hb := masked_eq h hf admits fun _ _ => rfl
  refine ⟨_, hb, shares_of_eq hnonneg hf rfl rfl, fun τ again x s s' e e' hagain hstatus => ?_⟩
  have hsame : ∀ p ∈ a.context.peers, admitted admits e'.roster a.context p =
      admitted admits env'.roster a.context p := by
    intro p hp
    unfold admitted
    rw [hstatus p hp]
  have hvalues := Vec.tabulate_congr fun p hp =>
    maskedValue_maskedValue (m := admitted admits env'.roster a.context) hnonneg hp
  rw [masked_eq hagain rfl admits hsame]
  simp only [hvalues]

/-- Two active peers who had a half in all. -/
theorem masked_shares_trio :
    let a : Assessment ℚ := ⟨.trio .defaults, ⟨[1 / 2, 1 / 3, 1 / 6]⟩, rfl⟩
    let roster := Roster.ofList [(.named "a", .active), (.named "b", .active), (.named "m", .active)]
    let env : Environment ℚ := { experiences := fun _ => .empty, roster, clock := .fixed ⟨9⟩,
                                 draws := .ofList [], notices := [] }
    let inner : Provider ℚ Unit := fun _ own env => (.ok a, own, env)
    (∀ x ∈ a.trust.entries, 0 ≤ x) ∧
      ∃ b, masked Sighting.isActive inner a.context () env = (.ok b, (), env) ∧
        Shares (admitted Sighting.isActive roster a.context) a b ∧
        b.trust.entries = [0, 2 / 3, 1 / 3] ∧
        masked Sighting.isActive (masked Sighting.isActive inner) a.context () env =
          (.ok b, (), env) := by
  intro a roster env inner
  have ha : ∀ x ∈ a.trust.entries, 0 ≤ x := by decide +kernel
  have hinner : inner a.context () env = (.ok a, (), env) := rfl
  obtain ⟨b, hb, hshares, hagain⟩ := masked_shares hinner ha Sighting.isActive
  have hentries : b.trust.entries = [0, 2 / 3, 1 / 3] := by
    have hvalue : (masked Sighting.isActive inner a.context () env).1.toOption.map
        (·.trust.entries) = some [0, 2 / 3, 1 / 3] := by decide +kernel
    rw [hb] at hvalue
    exact Option.some.inj hvalue
  exact ⟨ha, b, hb, hshares, hentries, hagain Unit _ _ _ _ _ _ hb fun _ _ => rfl⟩

end Provider

end Reputation
