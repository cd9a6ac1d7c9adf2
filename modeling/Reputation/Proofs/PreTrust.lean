import Mathlib.Tactic.Positivity
import Reputation.PreTrust
import Reputation.Proofs.Linear.Distribution
import Reputation.Proofs.Peer

/-! # Pre-trust as a function of a peer

`PreTrusted.share` is the pre-trust in one peer of a list: an equal part of one for each pre-trusted
peer of it, or for every peer of it if none is pre-trusted. Of the pre-trusted peers it is only asked
who of the list is among them, and of the list only how many peers it has and how many of them are
pre-trusted (`PreTrusted.share_congr`). So neither the order of the list matters, nor the order,
repetitions or absent peers among the pre-trusted: `PreTrusted.distribution_spreads`. -/

namespace Reputation

open Number

namespace PreTrusted

/-! ### Who is pre-trusted -/

theorem contains_iff {t : PreTrusted} {p : Peer} :
    t.contains p = true ↔ p.id ∈ t.peers.map Peer.id := by
  unfold contains
  rw [List.any_eq_true, List.mem_map]
  exact exists_congr fun q => and_congr_right fun _ => Peer.same_iff.trans eq_comm

theorem contains_ofList {listed : List Peer} {p : Peer} :
    (ofList listed).contains p = true ↔ p.id ∈ listed.map Peer.id :=
  contains_iff.trans Peer.mem_map_firsts

theorem contains_congr (t : PreTrusted) {p q : Peer} (h : p.id = q.id) :
    t.contains p = t.contains q :=
  congrArg (List.any _) (funext fun _ => Peer.same_congr h rfl)

/-- Peers of the same identities hold as many pre-trusted ones, in whatever order. -/
theorem countP_contains_eq (t : PreTrusted) {ps qs : List Peer}
    (h : (ps.map Peer.id).Perm (qs.map Peer.id)) : ps.countP t.contains = qs.countP t.contains := by
  have hid : t.contains = (fun id => t.contains (.named id)) ∘ Peer.id :=
    funext fun p => t.contains_congr rfl
  rw [hid, ← List.countP_map, ← List.countP_map, h.countP_eq]

/-! ### Shares -/

section Share
variable {K : Type} [Number K]

/-- The pre-trust in a peer of a list. -/
def share (t : PreTrusted) (peers : List Peer) (p : Peer) : K :=
  match peers.countP t.contains with
  | 0 => one / ofNat peers.length
  | n => if t.contains p then one / ofNat n else zero

theorem distribution_eq (t : PreTrusted) (peers : List Peer) :
    (t.distribution peers : Vec K) = Vec.tabulate peers (t.share peers) := by
  unfold distribution share
  split <;> simp [Vec.tabulate, *]

theorem get_distribution (t : PreTrusted) {peers : List Peer} {i : ℕ} {p : Peer}
    (h : peers[i]? = some p) : (t.distribution peers : Vec K).get i = .ok (t.share peers p) := by
  rw [distribution_eq]
  unfold Vec.get
  rw [Vec.entries_tabulate, List.getElem?_map, h]
  rfl

/-- **A share depends on two counts** and on whether the peer is pre-trusted. -/
theorem share_congr {t t' : PreTrusted} {ps qs : List Peer} {p q : Peer}
    (hlength : ps.length = qs.length) (hcount : ps.countP t.contains = qs.countP t'.contains)
    (h : t.contains p = t'.contains q) : (t.share ps p : K) = t'.share qs q := by
  unfold share
  rw [hlength, hcount, h]

/-- Without a pre-trusted peer, all share alike. -/
theorem share_of_forall {t : PreTrusted} {peers : List Peer}
    (h : ∀ p ∈ peers, ¬ t.contains p = true) (p : Peer) :
    (t.share peers p : K) = one / ofNat peers.length := by
  unfold share
  rw [List.countP_eq_zero.mpr h]
  rfl

/-- With a pre-trusted peer, these share alike, and the others get nothing. -/
theorem share_of_exists {t : PreTrusted} {peers : List Peer}
    (h : ∃ p ∈ peers, t.contains p = true) (p : Peer) :
    (t.share peers p : K) =
      if t.contains p then one / ofNat (peers.countP t.contains) else zero := by
  have hn : peers.countP t.contains ≠ 0 := (List.countP_pos_iff.mpr h).ne'
  unfold share
  split
  · next h0 => exact absurd h0 hn
  · rfl

end Share

theorem share_nonneg (t : PreTrusted) (peers : List Peer) (p : Peer) :
    (0 : ℚ) ≤ t.share peers p := by
  unfold share
  simp only [one_rat, zero_rat, ofNat_rat]
  split
  · positivity
  · split_ifs
    · positivity
    · exact le_rfl

/-- **The pre-trust of some peers is a distribution.** -/
theorem isDistribution_share (t : PreTrusted) {peers : List Peer} (h : peers ≠ []) :
    (Vec.tabulate peers (t.share peers : Peer → ℚ)).IsDistribution := by
  refine Vec.isDistribution_tabulate.mpr ⟨fun p _ => t.share_nonneg peers p, ?_⟩
  have hl : (peers.length : ℚ) ≠ 0 := by simpa using h
  unfold share
  simp only [one_rat, zero_rat, ofNat_rat]
  split
  · rw [List.map_const', List.sum_replicate, nsmul_eq_mul]
    exact mul_one_div_cancel hl
  · next hn =>
    rw [sum_map_ite]
    exact mul_one_div_cancel (by exact_mod_cast hn)

theorem share_pos_iff {t : PreTrusted} {peers : List Peer} (h : ∃ p ∈ peers, t.contains p = true)
    (p : Peer) : (0 : ℚ) < t.share peers p ↔ t.contains p = true := by
  have hn : (0 : ℚ) < peers.countP t.contains := by exact_mod_cast List.countP_pos_iff.mpr h
  rw [share_of_exists h]
  split_ifs with hp
  · exact iff_of_true (one_div_pos.mpr hn) hp
  · exact iff_of_false (lt_irrefl _) hp

/-! ### The spread over a list -/

/-- **One spread evenly**: over those peers of a list who are listed as pre-trusted, if there are
any, and over the whole list if there are none. -/
structure Spreads (listed peers : List Peer) (v : Vec ℚ) : Prop where
  size_eq : v.size = peers.length
  isDistribution : v.IsDistribution
  pos_iff : (∃ p ∈ peers, p.id ∈ listed.map Peer.id) → ∀ i p, peers[i]? = some p →
    ∃ x, v.get i = .ok x ∧ (0 < x ↔ p.id ∈ listed.map Peer.id)
  even : ∀ i j p q, peers[i]? = some p → peers[j]? = some q →
    (p.id ∈ listed.map Peer.id ↔ q.id ∈ listed.map Peer.id) → v.get i = v.get j
  uniform : (∀ p ∈ peers, p.id ∉ listed.map Peer.id) →
    ∀ i < peers.length, v.get i = .ok (1 / peers.length)

theorem spreads_distribution (listed : List Peer) {peers : List Peer} (h : peers ≠ []) :
    Spreads listed peers ((ofList listed).distribution peers) where
  size_eq := by rw [distribution_eq, Vec.size_tabulate]
  isDistribution := by
    rw [distribution_eq]
    exact isDistribution_share _ h
  pos_iff hex i p hp := by
    simp only [← contains_ofList] at hex ⊢
    exact ⟨_, get_distribution _ hp, share_pos_iff hex p⟩
  even i j p q hp hq hpq := by
    simp only [← contains_ofList] at hpq
    rw [get_distribution _ hp, get_distribution _ hq,
      share_congr rfl rfl (Bool.eq_iff_iff.mpr hpq)]
  uniform hnone i hi := by
    simp only [← contains_ofList] at hnone
    rw [get_distribution _ (List.getElem?_eq_getElem hi), share_of_forall hnone]
    rfl

/-- **The pre-trust of some peers** spreads one evenly. In another order of the peers each of them
has the same entry, and of the listed peers it only matters which of these peers are among them: not
their order, nor how often one is listed, nor who else is. -/
theorem distribution_spreads (listed : List Peer) {peers : List Peer} (h : peers ≠ []) :
    Spreads listed peers ((ofList listed).distribution peers) ∧
      (∀ peers' : List Peer, (peers.map Peer.id).Perm (peers'.map Peer.id) →
        ∀ i i' p p', peers[i]? = some p → peers'[i']? = some p' → p.id = p'.id →
          ((ofList listed).distribution peers' : Vec ℚ).get i' =
            ((ofList listed).distribution peers).get i) ∧
      ∀ listed' : List Peer,
        (∀ p ∈ peers, p.id ∈ listed'.map Peer.id ↔ p.id ∈ listed.map Peer.id) →
        ((ofList listed').distribution peers : Vec ℚ) = (ofList listed).distribution peers := by
  refine ⟨spreads_distribution listed h, fun peers' hperm i i' p p' hp hp' hid => ?_,
    fun listed' hlisted => ?_⟩
  · have hlength : peers'.length = peers.length := by simpa using hperm.symm.length_eq
    rw [get_distribution _ hp, get_distribution _ hp', share_congr hlength
      (countP_contains_eq _ hperm.symm) (contains_congr _ hid.symm)]
  · have hcontains : ∀ p ∈ peers, (ofList listed').contains p = (ofList listed).contains p := by
      intro p hp
      rw [Bool.eq_iff_iff, contains_ofList, contains_ofList]
      exact hlisted p hp
    have hcount : peers.countP (ofList listed').contains = peers.countP (ofList listed).contains :=
      List.countP_congr fun p hp => by rw [hcontains p hp]
    rw [distribution_eq, distribution_eq]
    exact Vec.tabulate_congr fun p hp => share_congr rfl hcount (hcontains p hp)

/-- Two of three peers are listed, one of them twice, with one who is not there. -/
theorem distribution_spreads_pair :
    let listed := ["a", "x", "a", "b"].map Peer.named
    let peers := ["c", "a", "b"].map Peer.named
    let v : Vec ℚ := (ofList listed).distribution peers
    peers ≠ [] ∧ Spreads listed peers v ∧ v.get 1 = .ok (1 / 2) ∧
      ((ofList listed).distribution peers.reverse : Vec ℚ).get 1 = v.get 1 ∧
      (ofList (["b", "a"].map Peer.named)).distribution peers = v := by
  intro listed peers v
  have h : peers ≠ [] := by decide
  obtain ⟨hspreads, horder, hlisted⟩ := distribution_spreads listed h
  have hreverse : (peers.map Peer.id).Perm (peers.reverse.map Peer.id) :=
    peers.reverse_perm.symm.map Peer.id
  exact ⟨h, hspreads, rfl, horder peers.reverse hreverse 1 1 _ _ rfl rfl rfl,
    hlisted (["b", "a"].map Peer.named) (by decide)⟩

end PreTrusted

end Reputation
