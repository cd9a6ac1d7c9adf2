import Mathlib.Data.Int.Notation
import Mathlib.Data.Nat.Notation
import Mathlib.Tactic.SplitIfs
import Reputation.Number.Basic

/-! # Numerals in binary64

A decimal is rounded to a zero, a finite number or an infinity, so of all numerals only
not-a-number is read as not a number (`isNaN_ofNumeral?`). A number that is not above zero is at most
zero, unless it is not a number (`zero_lt_iff`). -/

namespace Reputation.Number

open Float.Model (Format UnpackedFloat)
open Float.Model.UnpackedFloat (pack unpack packedInfinity packedZero unpackExponent unpackMantissa
  unpackExponent_packComponents Accuracy Sign)

/-! ### Packed and unpacked numbers -/

variable {s : Format} {u : UnpackedFloat}

/-- With all bits of the exponent set, the mantissa tells an infinity from what is not a number. -/
theorem unpackMantissa_pack (hu : u.isNaN = false) (he : unpackExponent (pack s u) = -1#_) :
    unpackMantissa (pack s u) = 0#_ := by
  revert he
  fun_cases pack with
  | case1 => cases hu
  | case2 t => simp [packedInfinity]
  | case3 t => simp [packedZero]
  | case4 t m e hm biased hb => simp [packedInfinity]
  | case5 t m e hm bits biased hb hn =>
    -- a normal exponent is below the one with all bits set
    intro he
    have hlt : biased < 2 ^ s.exponentBits - 1 := by omega
    rw [unpackExponent_packComponents, BitVec.neg_one_eq_allOnes, ← BitVec.toNat_inj,
      BitVec.toNat_ofNat, BitVec.toNat_allOnes, Nat.mod_eq_of_lt (by omega)] at he
    omega
  | case6 t m e hm bits biased hb hn =>
    intro he
    have hlt : 1 < 2 ^ s.exponentBits := Nat.one_lt_two_pow (Nat.pos_iff_ne_zero.mp s.he)
    rw [unpackExponent_packComponents, BitVec.neg_one_eq_allOnes, ← BitVec.toNat_inj,
      BitVec.toNat_allOnes, BitVec.toNat_ofNat, Nat.zero_mod] at he
    omega

theorem isNaN_ite {p : Prop} [Decidable p] {u v : UnpackedFloat} (hu : p → u.isNaN = false)
    (hv : ¬ p → v.isNaN = false) : (if p then u else v).isNaN = false := by
  by_cases h : p
  · rw [if_pos h]
    exact hu h
  · rw [if_neg h]
    exact hv h

theorem isNaN_dite {p : Prop} [Decidable p] {u : p → UnpackedFloat} {v : ¬ p → UnpackedFloat}
    (hu : ∀ h, (u h).isNaN = false) (hv : ∀ h, (v h).isNaN = false) :
    (if h : p then u h else v h).isNaN = false := by
  by_cases h : p
  · rw [dif_pos h]
    exact hu h
  · rw [dif_neg h]
    exact hv h

theorem isNaN_unpack_pack (hu : u.isNaN = false) : (unpack s (pack s u)).isNaN = false := by
  unfold unpack
  dsimp only
  refine isNaN_ite (fun hones => ?_) fun _ => ?_
  · exact isNaN_ite (fun _ => rfl) fun h => absurd (unpackMantissa_pack hu hones) h
  · exact isNaN_ite (fun _ => isNaN_dite (fun _ => rfl) fun _ => rfl) fun _ => rfl

theorem isNaN_ofModel_pack (hu : u.isNaN = false) :
    (Float.ofModel (.pack u)).isNaN = false :=
  isNaN_unpack_pack hu

theorem isNaN_neg {x : Float} (hx : x.isNaN = false) : (-x).isNaN = false := by
  refine isNaN_ofModel_pack ?_
  change x.toModel.unpack.isNaN = false at hx
  cases h : x.toModel.unpack with
  | notANumber => rw [h] at hx; cases hx
  | infinity _ | zero _ | finite _ _ _ _ => rfl

/-! ### Rounding -/

theorem isNaN_roundWithAccuracy (s : Format) (t : Sign) (m : ℕ) (e : ℤ) (accuracy : Accuracy) :
    (UnpackedFloat.roundWithAccuracy s t m e accuracy).isNaN = false := by
  unfold UnpackedFloat.roundWithAccuracy
  exact isNaN_dite (fun _ => rfl) fun _ => rfl

theorem isNaN_normalize (s : Format) (m e : ℤ) (t : Sign) :
    (UnpackedFloat.normalize s m e t).isNaN = false := by
  unfold UnpackedFloat.normalize
  cases compare m 0 with
  | eq => rfl
  | lt | gt => exact isNaN_roundWithAccuracy _ _ _ _ _

section Finite
variable (hu : u.isNaN = false) (t : Sign) (m : ℕ) (e : ℤ) (hm : 0 < m)
include hu

theorem isNaN_div : (UnpackedFloat.div s u (.finite t m e hm)).isNaN = false := by
  cases u with
  | notANumber => cases hu
  | infinity _ | zero _ => rfl
  | finite _ _ _ _ => exact isNaN_roundWithAccuracy _ _ _ _ _

theorem isNaN_mul : (UnpackedFloat.mul s u (.finite t m e hm)).isNaN = false := by
  cases u with
  | notANumber => cases hu
  | infinity _ | zero _ => rfl
  | finite _ _ _ _ => exact isNaN_roundWithAccuracy _ _ _ _ _

end Finite

/-! ### Decimals -/

theorem isNaN_modelOfScientific (m : ℕ) (e : ℤ) :
    (UnpackedFloat.ofScientific s m e).isNaN = false := by
  unfold UnpackedFloat.ofScientific
  refine isNaN_dite (fun _ => rfl) fun _ => ?_
  refine isNaN_ite (fun _ => rfl) fun _ => ?_
  refine isNaN_ite (fun _ => rfl) fun _ => ?_
  refine isNaN_ite (fun _ => ?_) fun _ => ?_
  · exact isNaN_mul rfl _ _ _ _
  · exact isNaN_div rfl _ _ _ _

/-- The small powers of ten are finite numbers other than zero. -/
theorem exists_unpack_powerOfTen {x : Float} (hx : x ∈ Float.exactlyRepresentablePowersOfTen) :
    ∃ t m e hm, x.toModel.unpack = .finite t m e hm := by
  have hall : Float.exactlyRepresentablePowersOfTen.all
      (fun x => x.isFinite && !(x == 0.0)) = true := by decide +kernel
  have h := Array.all_eq_true_iff_forall_mem.mp hall x hx
  have hzero : (0.0 : Float).toModel.unpack = .zero .positive := rfl
  change (x.toModel.unpack.isFinite &&
    !(x.toModel.unpack.beq (0.0 : Float).toModel.unpack)) = true at h
  rw [hzero] at h
  cases hu : x.toModel.unpack with
  | finite t m e hm => exact ⟨t, m, e, hm, rfl⟩
  | notANumber | infinity _ | zero _ => rw [hu] at h; cases h

theorem isNaN_ofScientific (m : ℕ) (negative : Bool) (e : ℕ) :
    (Float.ofScientific m negative e).isNaN = false := by
  unfold Float.ofScientific
  by_cases hsmall : m < 2 ^ 53 ∧ e ≤ 22
  · -- both `m` and the power of ten are exact here
    have he : e < Float.exactlyRepresentablePowersOfTen.size := Nat.lt_succ_of_le hsmall.2
    obtain ⟨t, n, d, hn, hpower⟩ := exists_unpack_powerOfTen (Array.getElem_mem he)
    have hm : (Float.Model.ofUInt64 m.toUInt64).unpack.isNaN = false :=
      isNaN_unpack_pack (isNaN_normalize _ _ _ _)
    rw [dif_pos hsmall]
    cases negative with
    | false =>
      refine isNaN_ofModel_pack ?_
      rw [hpower]
      exact isNaN_mul hm t n d hn
    | true =>
      refine isNaN_ofModel_pack ?_
      rw [hpower]
      exact isNaN_div hm t n d hn
  · rw [dif_neg hsmall]
    exact isNaN_ofModel_pack (isNaN_modelOfScientific _ _)

theorem isNaN_nearestFloat (digits : ℕ) (exponent : ℤ) :
    (nearestFloat digits exponent).isNaN = false := by
  unfold nearestFloat
  dsimp only
  split_ifs
  · decide +kernel
  · decide +kernel
  · exact isNaN_ofScientific _ _ _

/-- **Only not-a-number is read as not a number.** -/
theorem isNaN_ofNumeral? {n : Numeral} {x : Float} (h : ofNumeral? n = some x) :
    x.isNaN = decide (n = .notANumber) := by
  cases n with
  | decimal negative digits exponent =>
    cases h
    change (if negative then -(nearestFloat digits exponent)
      else nearestFloat digits exponent).isNaN = false
    split_ifs
    · exact isNaN_neg (isNaN_nearestFloat digits exponent)
    · exact isNaN_nearestFloat digits exponent
  | infinity negative =>
    cases h
    cases negative with
    | false | true => decide +kernel
  | notANumber =>
    cases h
    decide +kernel

/-! ### Above zero -/

/-- **A number is above zero** if it is a number that is not at most zero. -/
theorem zero_lt_iff (x : Float) : 0.0 < x ↔ x.isNaN = false ∧ ¬ x ≤ 0.0 := by
  have hzero : (0.0 : Float).toModel.unpack = .zero .positive := rfl
  have hlt : 0.0 < x ↔ UnpackedFloat.lt (.zero .positive) x.toModel.unpack = true := by
    rw [← hzero]
    exact decide_eq_true_iff (p := (0.0 : Float).toModel < x.toModel)
  have hle : x ≤ 0.0 ↔ UnpackedFloat.le x.toModel.unpack (.zero .positive) = true := by
    rw [← hzero]
    exact decide_eq_true_iff (p := x.toModel ≤ (0.0 : Float).toModel)
  rw [hlt, hle]
  change _ ↔ x.toModel.unpack.isNaN = false ∧ _
  cases x.toModel.unpack with
  | notANumber => decide
  | zero _ => exact iff_of_false nofun fun h => h.2 rfl
  | infinity t => cases t <;> decide
  | finite t _ _ _ =>
    cases t with
    | negative => exact iff_of_false nofun fun h => h.2 rfl
    | positive => exact iff_of_true rfl ⟨rfl, nofun⟩

end Reputation.Number
