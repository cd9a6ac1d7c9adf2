import Reputation.Place

/-! # Writing to places and reading again

Only where there is no directory a file cannot be written; anywhere else it holds what was written
(`Place.write_eq`). -/

namespace Reputation

namespace Place

theorem write_eq (refusal : TrustError) (p : Place) (b : Bytes) :
    p.write refusal b = if p = .nowhere then .error refusal else .ok (.file b) := by
  cases p with
  | nowhere => rfl
  | free => rfl
  | file _ => rfl

theorem write_eq_ok_iff {refusal : TrustError} {p q : Place} {b : Bytes} :
    p.write refusal b = .ok q ↔ p ≠ .nowhere ∧ q = .file b := by
  rw [write_eq]
  by_cases hp : p = .nowhere
  · simp [hp]
  · rw [if_neg hp]
    exact ⟨fun h => ⟨hp, (Except.ok.inj h).symm⟩, fun h => by rw [h.2]⟩

/-- **What is written is read.** -/
theorem write_bind_read {α : Type} (refusal : TrustError) (p : Place) (b : Bytes)
    (load : Bytes → Except TrustError α) :
    (p.write refusal b >>= fun q => q.read >>= load) =
      if p = .nowhere then .error refusal else load b := by
  rw [write_eq]
  by_cases hp : p = .nowhere
  · rw [if_pos hp, if_pos hp]
    rfl
  · rw [if_neg hp, if_neg hp]
    rfl

end Place

end Reputation
