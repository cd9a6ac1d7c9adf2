import Mathlib
import Reputation.Proofs.Number.Binary
import Reputation.Proofs.Number.Exact

/-! # Positive numbers in binary64

A sum of positive binary64 numbers is positive. It is rounded by dropping bits of its mantissa, and
never all of them: no exponent is below the least one, so bits are dropped only from a mantissa that
has too many (`shiftToTargetExponent_spec`). A number rounded in this way is `Packable`, and packing
it keeps it positive (`positive_unpack_pack`). With this binary64 has the signs of sums and
quotients, as the rational numbers have: `signs_float`. Positive numbers are ordered by exponent and
mantissa, with infinity above all: `ordered_float`. -/

namespace Reputation.Number

open Float.Model (Format UnpackedFloat totalExponent)
open Float.Model.UnpackedFloat (pack unpack packComponents packedInfinity unpackExponent
  unpackMantissa unpackExponent_packComponents unpackMantissa_packComponents
  unpackSign_packComponents Accuracy ExtendedMantissa Sign shiftToExponent shiftToTargetExponent
  decreaseExponent roundWithAccuracy)

/-- Is it above zero? -/
def Positive (u : UnpackedFloat) : Prop := UnpackedFloat.lt (.zero .positive) u = true

/-- **A number that can be packed**: no more bits than a mantissa has, and no exponent below the
least one. -/
def Packable (s : Format) : UnpackedFloat → Prop
  | .finite _ m e _ => m.log2 < s.mantissaBits ∧ s.minExponent ≤ e
  | _ => True

variable {s : Format} {u v : UnpackedFloat}

theorem positive_finite (m : ℕ) (e : ℤ) (hm : 0 < m) : Positive (.finite .positive m e hm) := rfl

theorem positive_cases (h : Positive u) :
    u = .infinity .positive ∨ ∃ m e hm, u = .finite .positive m e hm := by
  cases u with
  | notANumber | zero _ => cases h
  | infinity t => cases t with
    | negative => cases h
    | positive => exact Or.inl rfl
  | finite t m e hm => cases t with
    | negative => cases h
    | positive => exact Or.inr ⟨m, e, hm, rfl⟩

/-! ### Packing -/

theorem natCast_two_pow (n : ℕ) : ((2 ^ n : ℕ) : ℤ) = 2 ^ n := Int.natCast_pow 2 n

/-- The stored parts of a positive number are not those of zero or of what is not a number. -/
theorem positive_unpack {e : BitVec s.exponentBits} {m : BitVec s.mantissaBitsWithoutImplicit}
    (hones : e = -1#_ → m = 0#_) (hzero : e = 0#_ → m ≠ 0#_) :
    Positive (unpack s (packComponents s .positive e m)) := by
  unfold unpack
  simp only [unpackMantissa_packComponents, unpackExponent_packComponents,
    unpackSign_packComponents]
  split_ifs with he hm h0 hm0
  · rfl
  · exact absurd (hones he) hm
  · exact absurd hm0 (hzero h0)
  · rfl
  · rfl

theorem zero_ne_ones : (0#s.exponentBits) ≠ -1#_ := by
  intro h
  have hbits := Nat.one_lt_two_pow (Nat.pos_iff_ne_zero.mp s.he)
  rw [BitVec.neg_one_eq_allOnes, ← BitVec.toNat_inj, BitVec.toNat_allOnes, BitVec.toNat_ofNat,
    Nat.zero_mod] at h
  omega

theorem positive_packedInfinity : Positive (unpack s (packedInfinity s .positive)) :=
  positive_unpack (fun _ => rfl) fun h0 => absurd h0.symm zero_ne_ones

/-- The exponent that is stored of a number that can be packed is not zero. -/
theorem biased_pos {e : ℤ} (h : s.minExponent ≤ e) :
    0 < (e + s.exponentBias + s.mantissaBitsWithoutImplicit).toNat := by
  have hpow : 0 < 2 ^ (s.exponentBits - 1) := Nat.two_pow_pos _
  have hcast := natCast_two_pow (s.exponentBits - 1)
  unfold Format.minExponent Format.mantissaBits at h
  unfold Format.exponentBias
  omega

/-- **Packing keeps a positive number positive.** -/
theorem positive_unpack_pack (hp : Packable s u) (h : Positive u) :
    Positive (unpack s (pack s u)) := by
  obtain rfl | ⟨m, e, hm, rfl⟩ := positive_cases h
  · exact positive_packedInfinity
  obtain ⟨hbits, hexp⟩ := hp
  have hbiased := biased_pos hexp
  unfold pack
  dsimp only
  split_ifs with hlarge hnormal
  · exact positive_packedInfinity
  · -- a normal number has a stored exponent between the two special ones
    refine positive_unpack (fun hones => ?_) fun hzero => ?_
    · rw [BitVec.neg_one_eq_allOnes, ← BitVec.toNat_inj, BitVec.toNat_ofNat, BitVec.toNat_allOnes,
        Nat.mod_eq_of_lt (by omega)] at hones
      omega
    · rw [← BitVec.toNat_inj, BitVec.toNat_ofNat, BitVec.toNat_ofNat, Nat.zero_mod,
        Nat.mod_eq_of_lt (by omega)] at hzero
      omega
  · -- a subnormal one has all bits of its mantissa stored
    have hlog : m.log2 < s.mantissaBitsWithoutImplicit := by
      unfold Format.mantissaBits at hbits hnormal
      omega
    have hlt : m < 2 ^ s.mantissaBitsWithoutImplicit := (Nat.log2_lt hm.ne').mp hlog
    refine positive_unpack (fun hones => absurd hones zero_ne_ones) fun _ hzero => ?_
    rw [← BitVec.toNat_inj, BitVec.toNat_ofNat, BitVec.toNat_ofNat, Nat.zero_mod,
      Nat.mod_eq_of_lt hlt] at hzero
    omega

theorem packable_unpack (b : BitVec s.numBits) : Packable s (unpack s b) := by
  have hpow : 0 < 2 ^ (s.exponentBits - 1) := Nat.two_pow_pos _
  have hcast := natCast_two_pow (s.exponentBits - 1)
  have hbits : ∀ {n : ℕ}, n ≠ 0 → n < 2 ^ s.mantissaBits → n.log2 < s.mantissaBits :=
    fun hn hlt => (Nat.log2_lt hn).mpr hlt
  unfold unpack
  dsimp only
  split_ifs with hones hm h0 hm0
  · trivial
  · trivial
  · trivial
  · have hpos : (unpackMantissa b).toNat ≠ 0 := fun h => hm0 (BitVec.toNat_inj.mp h)
    have hlt : (unpackMantissa b).toNat < 2 ^ s.mantissaBits :=
      (unpackMantissa b).isLt.trans_le (Nat.pow_le_pow_right Nat.two_pos (Nat.le_add_left _ _))
    refine ⟨hbits hpos hlt, ?_⟩
    unfold Format.minExponent Format.mantissaBits Format.exponentBias
    omega
  · have hpos : (unpackExponent b).toNat ≠ 0 := fun h => h0 (BitVec.toNat_inj.mp h)
    refine ⟨hbits (by simp) (BitVec.isLt _), ?_⟩
    unfold Format.minExponent Format.mantissaBits Format.exponentBias
    omega

/-! ### Rounding -/

theorem mantissa_shiftRight (em : ExtendedMantissa) (n : ℕ) :
    (em >>> n).mantissa = em.mantissa / 2 ^ n := by
  change (n.repeat ExtendedMantissa.shiftRightOne em).mantissa = _
  induction n with
  | zero => simp [Nat.repeat]
  | succ n ih =>
    rw [Nat.repeat]
    change (n.repeat ExtendedMantissa.shiftRightOne em).mantissa / 2 = _
    rw [ih, Nat.div_div_eq_div_mul, Nat.pow_succ]

theorem mantissa_ofMantissaAndAccuracy (m : ℕ) (a : Accuracy) :
    (ExtendedMantissa.ofMantissaAndAccuracy m a).mantissa = m := by
  cases a with
  | exact => rfl
  | inexact o => cases o <;> rfl

theorem le_roundedMantissa (em : ExtendedMantissa) : em.mantissa ≤ em.roundedMantissa := by
  unfold ExtendedMantissa.roundedMantissa Accuracy.roundToNearestEven
  split <;> omega

/-- **A shift to the target exponent** leaves a number that can be packed, and does not drop all
bits of the mantissa if the exponent was no less than the least one. -/
theorem shiftToTargetExponent_spec {m : ℕ} (hm : 0 < m) {e : ℤ} (he : s.minExponent ≤ e)
    (a : Accuracy) :
    0 < (shiftToTargetExponent s m e a).1.mantissa ∧
      (shiftToTargetExponent s m e a).1.mantissa.log2 < s.mantissaBits ∧
      s.minExponent ≤ (shiftToTargetExponent s m e a).2 := by
  unfold shiftToTargetExponent shiftToExponent Format.targetExponent totalExponent
  simp only [mantissa_shiftRight, mantissa_ofMantissaAndAccuracy]
  set shift := (max ((m.log2 : ℤ) + 1 + e - s.mantissaBits) s.minExponent - e).toNat with hshift
  have hle : shift ≤ m.log2 := by
    unfold Format.mantissaBits at hshift
    omega
  have hpos : 0 < m / 2 ^ shift :=
    Nat.div_pos ((Nat.le_log2 hm.ne').mp hle) (Nat.two_pow_pos _)
  have hlt : m < 2 ^ (s.mantissaBits + shift) := (Nat.log2_lt hm.ne').mp (by omega)
  refine ⟨hpos, (Nat.log2_lt hpos.ne').mpr ?_, by omega⟩
  rwa [Nat.div_lt_iff_lt_mul (Nat.two_pow_pos _), ← Nat.pow_add]

/-- **Rounding keeps a number above zero**, unless its exponent is below the least one. -/
theorem roundWithAccuracy_spec {m : ℕ} (hm : 0 < m) {e : ℤ} (he : s.minExponent ≤ e)
    (a : Accuracy) :
    Positive (roundWithAccuracy s .positive m e a) ∧
      Packable s (roundWithAccuracy s .positive m e a) := by
  obtain ⟨hpos, -, hexp⟩ := shiftToTargetExponent_spec hm he a
  have hround := hpos.trans_le (le_roundedMantissa (shiftToTargetExponent s m e a).1)
  -- rounding up may take one more bit, which a second shift drops
  obtain ⟨hpos', hbits', hexp'⟩ := shiftToTargetExponent_spec hround hexp .exact
  unfold roundWithAccuracy
  dsimp only
  rw [dif_neg hpos'.ne']
  exact ⟨positive_finite _ _ _, hbits', hexp'⟩

theorem normalize_spec {m : ℤ} (hm : 0 < m) {e : ℤ} (he : s.minExponent ≤ e) (t : Sign) :
    Positive (UnpackedFloat.normalize s m e t) ∧ Packable s (UnpackedFloat.normalize s m e t) := by
  have hc : compare m 0 = .gt := compare_gt_iff_gt.mpr hm
  unfold UnpackedFloat.normalize UnpackedFloat.round decreaseExponent
  rw [hc]
  dsimp only
  refine roundWithAccuracy_spec ?_ ?_ _
  · rw [Nat.shiftLeft_eq]
    exact Nat.mul_pos (by omega) (Nat.two_pow_pos _)
  · unfold Format.targetExponent
    omega

/-- **A sum of positive numbers is positive.** -/
theorem add_spec (hu : Positive u) (hv : Positive v) (hpu : Packable s u) (hpv : Packable s v) :
    Positive (UnpackedFloat.add s u v) ∧ Packable s (UnpackedFloat.add s u v) := by
  obtain rfl | ⟨m, e, hm, rfl⟩ := positive_cases hu
  · obtain rfl | ⟨n, d, hn, rfl⟩ := positive_cases hv
    · exact ⟨rfl, trivial⟩
    · exact ⟨rfl, trivial⟩
  · obtain rfl | ⟨n, d, hn, rfl⟩ := positive_cases hv
    · exact ⟨rfl, trivial⟩
    · unfold UnpackedFloat.add decreaseExponent
      dsimp only
      refine normalize_spec ?_ (le_min hpu.2 hpv.2) _
      have hleft : 0 < m <<< (e - min e d).toNat := by
        rw [Nat.shiftLeft_eq]
        exact Nat.mul_pos hm (Nat.two_pow_pos _)
      exact Int.add_pos_of_pos_of_nonneg (Int.natCast_pos.mpr hleft) (Int.natCast_nonneg _)

/-! ### Order -/

theorem le_infinity (h : Positive u) : UnpackedFloat.le u (.infinity .positive) = true := by
  obtain rfl | ⟨m, e, hm, rfl⟩ := positive_cases h
  · rfl
  · rfl

/-- **Finite positive numbers are compared by exponent**, and then by mantissa. -/
theorem finite_le_iff {m n : ℕ} {e d : ℤ} {hm : 0 < m} {hn : 0 < n} :
    UnpackedFloat.le (.finite .positive m e hm) (.finite .positive n d hn) = true ↔
      e < d ∨ e = d ∧ m ≤ n := by
  change ((compare e d).then (compare m n)).isLE = true ↔ _
  rw [Ordering.isLE_then_iff_or, Int.compare_eq_lt, Int.compare_eq_eq, Nat.isLE_compare]

theorem le_total_of_positive (hu : Positive u) (hv : Positive v) :
    UnpackedFloat.le u v = true ∨ UnpackedFloat.le v u = true := by
  obtain rfl | ⟨m, e, hm, rfl⟩ := positive_cases hu
  · exact .inr (le_infinity hv)
  obtain rfl | ⟨n, d, hn, rfl⟩ := positive_cases hv
  · exact .inl (le_infinity hu)
  rw [finite_le_iff, finite_le_iff]
  omega

theorem le_trans_of_positive {w : UnpackedFloat} (hu : Positive u) (hv : Positive v)
    (hw : Positive w) (huv : UnpackedFloat.le u v = true) (hvw : UnpackedFloat.le v w = true) :
    UnpackedFloat.le u w = true := by
  obtain rfl | ⟨k, c, hk, rfl⟩ := positive_cases hw
  · exact le_infinity hu
  obtain rfl | ⟨n, d, hn, rfl⟩ := positive_cases hv
  · cases hvw
  obtain rfl | ⟨m, e, hm, rfl⟩ := positive_cases hu
  · cases huv
  rw [finite_le_iff] at huv hvw ⊢
  omega

/-! ### Binary64 -/

theorem le_iff_model (x y : Float) :
    le x y = true ↔ UnpackedFloat.le x.toModel.unpack y.toModel.unpack = true :=
  decide_eq_true_iff.trans (decide_eq_true_iff (p := x.toModel ≤ y.toModel))

theorem lt_zero_iff_positive (x : Float) : lt zero x = true ↔ Positive x.toModel.unpack := by
  have hzero : (0.0 : Float).toModel.unpack = .zero .positive := rfl
  change decide ((0.0 : Float) < x) = true ↔ UnpackedFloat.lt (.zero .positive) _ = true
  rw [← hzero]
  exact decide_eq_true_iff.trans (decide_eq_true_iff (p := (0.0 : Float).toModel < x.toModel))

theorem lt_zero_ofModel_pack (hp : Packable .binary64 u) (h : Positive u) :
    lt zero (Float.ofModel (.pack u)) = true :=
  (lt_zero_iff_positive _).mpr (positive_unpack_pack hp h)

/-- **Binary64 has the signs of sums and quotients.** -/
theorem signs_float : Signs Float where
  zero_not_pos := by decide +kernel
  start_pos x h := by
    have hx := (lt_zero_iff_positive x).mp h
    have hstart : (emptySum : Float).toModel.unpack = .zero .negative := rfl
    have hadd : UnpackedFloat.add .binary64 (.zero .negative) x.toModel.unpack =
        x.toModel.unpack := by
      obtain hu | ⟨m, e, hm, hu⟩ := positive_cases hx
      · rw [hu]; rfl
      · rw [hu]; rfl
    change lt zero (Float.ofModel (.pack (UnpackedFloat.add .binary64
      (emptySum : Float).toModel.unpack x.toModel.unpack))) = true
    rw [hstart, hadd]
    exact lt_zero_ofModel_pack (packable_unpack _) hx
  add_pos x y hx hy := by
    obtain ⟨hpos, hpack⟩ := add_spec ((lt_zero_iff_positive x).mp hx)
      ((lt_zero_iff_positive y).mp hy) (packable_unpack (s := .binary64) _) (packable_unpack _)
    exact lt_zero_ofModel_pack hpack hpos
  not_le_zero x h := by
    have hx : (0.0 : Float) < x := of_decide_eq_true h
    exact decide_eq_false ((zero_lt_iff x).mp hx).2
  zero_div_not_pos x h := by
    have hx := (lt_zero_iff_positive x).mp h
    have hzero : (zero : Float).toModel.unpack = .zero .positive := rfl
    have hdiv : UnpackedFloat.div .binary64 (.zero .positive) x.toModel.unpack =
        .zero .positive := by
      obtain hu | ⟨m, e, hm, hu⟩ := positive_cases hx
      · rw [hu]; rfl
      · rw [hu]; rfl
    change lt zero (Float.ofModel (.pack (UnpackedFloat.div .binary64
      (zero : Float).toModel.unpack x.toModel.unpack))) = false
    rw [hzero, hdiv]
    decide +kernel

/-- **Binary64 orders its positive numbers**, infinity included. -/
theorem ordered_float : Ordered Float where
  total x y hx hy := by
    rw [lt_zero_iff_positive] at hx hy
    rw [le_iff_model, le_iff_model]
    exact le_total_of_positive hx hy
  trans x y z hx hy hz hxy hyz := by
    rw [lt_zero_iff_positive] at hx hy hz
    rw [le_iff_model] at hxy hyz ⊢
    exact le_trans_of_positive hx hy hz hxy hyz

end Reputation.Number
