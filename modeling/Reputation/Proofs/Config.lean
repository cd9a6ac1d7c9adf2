import Mathlib.Tactic.NormNum
import Reputation.Config
import Reputation.Proofs.Context
import Reputation.Proofs.Failure
import Reputation.Proofs.Number.Exact
import Reputation.Proofs.Params

/-! # Valid configurations and their contexts

A configuration makes a context of every list of peers (`Config.exists_context`), and each of them
`Suits` it. The parameters of a valid configuration are used as they were checked
(`Config.valid_of_validate`), so the weight of the pre-trust in such a context lies between zero and
one (`Config.Suits.alpha_mem`), whether it is set or left at its default. -/

namespace Reputation

open Number

namespace Config

variable {c : Config}

/-! ### Contexts -/

/-- **A context of a configuration**: the local peer comes last. -/
structure Suits (c : Config) (x : Context) : Prop where
  home_eq : x.home = c.homePeer
  params_eq : x.params = c.params
  getLast?_eq : x.peers.getLast? = some c.homePeer

theorem distinct_contextPeers (c : Config) (ps : List Peer) :
    Peer.Distinct (c.contextPeers ps) := by
  obtain ⟨hd, hs⟩ := Peer.newcomers_spec [c.home] ps
  refine hd.append (Peer.distinct_singleton _) fun p hp q hq hpq => ?_
  rw [List.mem_singleton.mp hq] at hpq
  exact hs p hp (List.mem_singleton.mpr hpq)

/-- **Every list of peers makes a context**, over any store. -/
theorem exists_context (c : Config) (ps : List Peer) (id : StoreId) :
    ∃ x, c.context ps id = .ok x ∧ c.Suits x ∧ x.store = id := by
  have hm : c.homePeer ∈ c.contextPeers ps := List.mem_append_right _ (List.mem_singleton_self _)
  exact ⟨_, Context.build_eq_ok (c.distinct_contextPeers ps) (List.mem_map_of_mem hm) _ _ _,
    ⟨rfl, rfl, List.getLast?_concat⟩, rfl⟩

theorem suits_of_context_eq {ps : List Peer} {id : StoreId} {x : Context}
    (h : c.context ps id = .ok x) : c.Suits x ∧ x.store = id := by
  obtain ⟨y, hy, hs⟩ := c.exists_context ps id
  rw [h] at hy
  cases hy
  exact hs

/-- A suitable context over other peers. -/
theorem Suits.withPeers {x : Context} (hx : c.Suits x) {ps : List Peer} (hd : Peer.Distinct ps)
    (hl : ps.getLast? = some x.home) :
    ∃ y, x.withPeers ps = .ok y ∧ c.Suits y ∧ y.peers = ps := by
  have hm : x.home ∈ ps := List.mem_of_getLast? hl
  refine ⟨_, Context.build_eq_ok hd (List.mem_map_of_mem hm) _ _ _,
    ⟨hx.home_eq, hx.params_eq, ?_⟩, rfl⟩
  rw [← hx.home_eq]
  exact hl

/-! ### Validation -/

section Valid
variable {K : Type} [Number K]

theorem validate_eq (K : Type) [Number K] (c : Config) :
    c.validate K =
      if (Text.trim c.home).isEmpty then .error .emptyLocalPeer
      else if c.maxMatrixSize < 2 then .error .matrixTooSmall
      else if c.maxSelected = 0 then .error .selectionTooSmall
      else
        checkParam c.params Params.alpha (c.params.number (K := K)) checkAlpha >>= fun _ =>
          checkParam c.params Params.epsilon (c.params.number (K := K)) checkEpsilon >>= fun _ =>
            checkParam c.params Params.maxIterations c.params.integer fun _ => .ok () := by
  unfold validate
  split_ifs <;> rfl

/-- **What is known of a valid configuration**: room for two peers, and parameters that are used as
they were checked. -/
structure Valid (K : Type) [Number K] (c : Config) : Prop where
  room : 2 ≤ c.maxMatrixSize.toNat
  alpha : c.params.Used (Params.readNumber? (K := K)) Params.alpha checkAlpha Params.defaultAlpha
  epsilon : c.params.Used (Params.readNumber? (K := K)) Params.epsilon checkEpsilon
    Params.defaultEpsilon
  maxIterations : c.params.Used Params.readInteger? Params.maxIterations (fun _ => .ok ())
    Params.defaultMaxIterations

theorem valid_of_validate (h : c.validate K = .ok ()) : c.Valid K := by
  rw [validate_eq] at h
  split_ifs at h with h1 h2 h3
  obtain ⟨_, halpha, h⟩ := bind_eq_ok h
  obtain ⟨_, hepsilon, hlimit⟩ := bind_eq_ok h
  unfold Params.number at halpha hepsilon
  unfold Params.integer at hlimit
  rw [UInt64.lt_iff_toNat_lt] at h2
  exact ⟨Nat.le_of_not_lt h2, Params.used_of_checkParam halpha _,
    Params.used_of_checkParam hepsilon _, Params.used_of_checkParam hlimit _⟩

theorem checkAlpha_eq_ok {x : K} (h : checkAlpha x = .ok ()) :
    le zero x = true ∧ le x one = true := by
  unfold checkAlpha at h
  split_ifs at h with hx
  exact Bool.and_eq_true_iff.mp hx

theorem checkEpsilon_eq_ok {x : K} (h : checkEpsilon x = .ok ()) : le x zero = false := by
  unfold checkEpsilon at h
  split_ifs at h with hx
  exact Bool.eq_false_iff.mpr hx

end Valid

theorem defaultAlpha_rat : (Params.defaultAlpha : ℚ) = 1 / 10 := by
  change ((1 : ℕ) : ℚ) * 10 ^ (-1 : ℤ) = 1 / 10
  norm_num

/-- **The weight of a valid configuration** lies between zero and one. -/
theorem Suits.alpha_mem {x : Context} (hx : c.Suits x) (h : c.validate ℚ = .ok ()) :
    0 ≤ (Engine.tuning x.params : Engine.Tuning ℚ).alpha ∧
      (Engine.tuning x.params : Engine.Tuning ℚ).alpha ≤ 1 := by
  have hchecked := (valid_of_validate h).alpha.checked
  rw [hx.params_eq]
  change 0 ≤ (c.params.numberOr Params.alpha (Params.defaultAlpha : ℚ)).1 ∧
    (c.params.numberOr Params.alpha (Params.defaultAlpha : ℚ)).1 ≤ 1
  unfold Params.numberOr
  rcases hchecked with hdefault | hcheck
  · rw [hdefault, defaultAlpha_rat]
    norm_num
  · have hmem := checkAlpha_eq_ok hcheck
    simpa using hmem

end Config

end Reputation
