import Mathlib
import Categorial.Proofs.Double.Order
set_option autoImplicit false

namespace Categorial

namespace Double

open Float.Model (Format UnpackedFloat)
open Float.Model.UnpackedFloat

theorem isNaN_normalize (format : Format) (mantissa exponent : Int) (sign : Sign) :
    (UnpackedFloat.normalize format mantissa exponent sign).isNaN = false := by
  have hround : ∀ s m e, (UnpackedFloat.round format s m e).isNaN = false := by
    intro s m e
    unfold UnpackedFloat.round roundWithAccuracy
    dsimp only
    split <;> rfl
  unfold UnpackedFloat.normalize
  split
  · exact hround _ _ _
  · rfl
  · exact hround _ _ _

theorem isNaN_unpackedAdd (format : Format) {u v : UnpackedFloat} (hu : u.isNaN = false)
    (hv : v.isNaN = false) (h : ∀ s t, u = .infinity s → v = .infinity t → s = t) :
    (UnpackedFloat.add format u v).isNaN = false := by
  cases u with
  | notANumber => cases hu
  | infinity s =>
    cases v with
    | notANumber => cases hv
    | infinity t =>
      obtain rfl := h s t rfl rfl
      cases s <;> rfl
    | zero => rfl
    | finite => rfl
  | zero s =>
    cases v with
    | notANumber => cases hv
    | infinity => rfl
    | zero t => cases s <;> cases t <;> rfl
    | finite => rfl
  | finite =>
    cases v with
    | notANumber => cases hv
    | infinity => rfl
    | zero => rfl
    | finite => exact isNaN_normalize _ _ _ _

-- What a pattern is shows in its exponent and mantissa, and packing keeps it.

theorem isNaN_unpack_iff {b : BitVec Format.binary64.numBits} :
    (UnpackedFloat.unpack Format.binary64 b).isNaN = true ↔
      unpackExponent b = -1#_ ∧ unpackMantissa b ≠ 0#_ := by
  unfold UnpackedFloat.unpack
  dsimp only
  split_ifs <;> simp_all [UnpackedFloat.isNaN]

theorem isInf_unpack_iff {b : BitVec Format.binary64.numBits} :
    (UnpackedFloat.unpack Format.binary64 b).isInf = true ↔
      unpackExponent b = -1#_ ∧ unpackMantissa b = 0#_ := by
  unfold UnpackedFloat.unpack
  dsimp only
  split_ifs <;> simp_all [UnpackedFloat.isInf]

/-- The largest exponent is for what is not finite. -/
theorem ofNat_ne_largest {n : Nat} (h : n < 2047) : BitVec.ofNat 11 n ≠ -1#_ := by
  intro heq
  have hn : (BitVec.ofNat 11 n).toNat = 2047 := congrArg BitVec.toNat heq
  rw [BitVec.toNat_ofNat, Nat.mod_eq_of_lt (by omega)] at hn
  omega

theorem isNaN_unpack_pack (u : UnpackedFloat) :
    (UnpackedFloat.unpack Format.binary64 (UnpackedFloat.pack Format.binary64 u)).isNaN = u.isNaN := by
  rw [Bool.eq_iff_iff, isNaN_unpack_iff]
  fun_cases UnpackedFloat.pack with
  | case1 => simp [packedNaN, UnpackedFloat.isNaN]
  | case2 s => simp [packedInfinity, UnpackedFloat.isNaN]
  | case3 s => simp [packedZero, UnpackedFloat.isNaN]
  | case4 s m e hm biasedExponent h => simp [packedInfinity, UnpackedFloat.isNaN]
  | case5 s m e hm actualMantissaBits biasedExponent h₁ h₂ =>
    have hne := ofNat_ne_largest (Nat.lt_of_succ_lt_succ (not_le.mp h₁))
    simp only [unpackExponent_packComponents, hne, false_and, UnpackedFloat.isNaN, Bool.false_eq_true]
  | case6 s m e hm actualMantissaBits biasedExponent h₁ h₂ =>
    simp [UnpackedFloat.isNaN]

theorem exponent_lt_of_unpack {b : BitVec Format.binary64.numBits} {s : Sign} {m : Nat} {e : Int}
    {hm : 0 < m} (h : UnpackedFloat.unpack Format.binary64 b = .finite s m e hm) : e < 972 := by
  unfold UnpackedFloat.unpack at h
  dsimp only at h
  split_ifs at h with hall hmantissa hzero hmantissa
  · simp only [UnpackedFloat.finite.injEq] at h
    rw [← h.2.2, hzero]
    decide
  · simp only [UnpackedFloat.finite.injEq] at h
    have hlt := (unpackExponent b).isLt
    have hne : (unpackExponent b).toNat ≠ 2047 := fun h => hall (BitVec.toNat_inj.mp h)
    have hbias : (Format.binary64.exponentBias : Int) = 1023 := rfl
    rw [← h.2.2, hbias]
    simp only [Format.binary64] at hlt ⊢
    omega

theorem isInf_unpack_pack {u : UnpackedFloat} (h : ∀ s m e hm, u = .finite s m e hm → e < 972) :
    (UnpackedFloat.unpack Format.binary64 (UnpackedFloat.pack Format.binary64 u)).isInf = u.isInf := by
  rw [Bool.eq_iff_iff, isInf_unpack_iff]
  fun_cases UnpackedFloat.pack with
  | case1 => simp [packedNaN, UnpackedFloat.isInf]
  | case2 s => simp [packedInfinity, UnpackedFloat.isInf]
  | case3 s => simp [packedZero, UnpackedFloat.isInf]
  | case4 s m e hm biasedExponent hlarge =>
    have he := h s m e hm rfl
    have hbias : (Format.binary64.exponentBias : Int) = 1023 := rfl
    have hexponent : 2047 ≤ (e + Format.binary64.exponentBias + 52).toNat := Nat.le_of_succ_le_succ hlarge
    omega
  | case5 s m e hm actualMantissaBits biasedExponent h₁ h₂ =>
    have hne := ofNat_ne_largest (Nat.lt_of_succ_lt_succ (not_le.mp h₁))
    simp only [unpackExponent_packComponents, hne, false_and, UnpackedFloat.isInf, Bool.false_eq_true]
  | case6 s m e hm actualMantissaBits biasedExponent h₁ h₂ =>
    simp [UnpackedFloat.isInf]

/-- An infinity comes from the pattern of the same infinity. -/
theorem unpack_eq_infinity {b : BitVec Format.binary64.numBits} {s : Sign}
    (h : UnpackedFloat.unpack Format.binary64
      (UnpackedFloat.pack Format.binary64 (UnpackedFloat.unpack Format.binary64 b)) = .infinity s) :
    UnpackedFloat.unpack Format.binary64 b = .infinity s := by
  have hinf := isInf_unpack_pack fun _ _ _ _ => exponent_lt_of_unpack (b := b)
  rw [h] at hinf
  cases hb : UnpackedFloat.unpack Format.binary64 b with
  | infinity t =>
    rw [hb] at h
    cases t <;> exact h
  | notANumber => simp [hb, UnpackedFloat.isInf] at hinf
  | zero => simp [hb, UnpackedFloat.isInf] at hinf
  | finite => simp [hb, UnpackedFloat.isInf] at hinf

theorem exponent_toNat (x : Double) :
    (@unpackExponent Format.binary64 x.bits.toBitVec).toNat =
      x.bits.toNat / 2 ^ 52 % 2 ^ 11 := by
  simp [unpackExponent, BitVec.extractLsb, Nat.shiftRight_eq_div_pow]

theorem mantissa_toNat (x : Double) :
    (@unpackMantissa Format.binary64 x.bits.toBitVec).toNat =
      x.bits.toNat % 2 ^ 52 := by
  simp [unpackMantissa, BitVec.extractLsb]

theorem isNaN_unpack (x : Double) :
    (UnpackedFloat.unpack Format.binary64 x.bits.toBitVec).isNaN = x.isNaN := by
  have hlargest : (-BitVec.ofNat Format.binary64.exponentBits 1).toNat = 2047 := rfl
  have hzero : (BitVec.ofNat Format.binary64.mantissaBitsWithoutImplicit 0).toNat = 0 := rfl
  rw [Bool.eq_iff_iff, isNaN_unpack_iff, isNaN_iff, ne_eq, ← BitVec.toNat_inj, ← BitVec.toNat_inj,
    exponent_toNat, mantissa_toNat, hlargest, hzero]
  omega

def isInfinite (x : Double) : Bool := x.magnitude == 0x7FF0000000000000

theorem isInfinite_iff {x : Double} :
    x.isInfinite = true ↔ x.bits.toNat % 2 ^ 63 = 0x7FF0000000000000 := by
  have hinf : (0x7FF0000000000000 : UInt64).toNat = 0x7FF0000000000000 := rfl
  rw [isInfinite, beq_iff_eq, ← UInt64.toNat_inj, hinf, magnitude_toNat]

theorem isInfinite_of_unpack {x : Double} {s : Sign}
    (h : UnpackedFloat.unpack Format.binary64 x.bits.toBitVec = .infinity s) : x.isInfinite = true := by
  have hlargest : (-BitVec.ofNat Format.binary64.exponentBits 1).toNat = 2047 := rfl
  have hzero : (BitVec.ofNat Format.binary64.mantissaBitsWithoutImplicit 0).toNat = 0 := rfl
  have hinf : (UnpackedFloat.unpack Format.binary64 x.bits.toBitVec).isInf = true := by
    rw [h]
    rfl
  rw [isInf_unpack_iff, ← BitVec.toNat_inj, ← BitVec.toNat_inj, exponent_toNat, mantissa_toNat, hlargest,
    hzero] at hinf
  rw [isInfinite_iff]
  omega

/-- A sum of numbers is a number, unless they are infinities of opposite signs. -/
theorem isNaN_add {x y : Double} (hx : x.isNaN = false) (hy : y.isNaN = false)
    (h : x.isInfinite = true → y.isInfinite = true → x = y) : (x + y).isNaN = false := by
  have hsum : (x.toFloat + y.toFloat).isNaN = false := by
    refine (isNaN_unpack_pack _).trans (isNaN_unpackedAdd _ ?_ ?_ ?_)
    · exact (isNaN_unpack_pack _).trans ((isNaN_unpack x).trans hx)
    · exact (isNaN_unpack_pack _).trans ((isNaN_unpack y).trans hy)
    · intro s t hs ht
      have hs := unpack_eq_infinity hs
      have ht := unpack_eq_infinity ht
      obtain rfl := h (isInfinite_of_unpack hs) (isInfinite_of_unpack ht)
      rw [hs] at ht
      cases ht
      rfl
  have hadd : x + y = binary (· + ·) x y := rfl
  rw [hadd, binary, hx, hy, ofResult, hsum, if_neg Bool.false_ne_true, if_neg Bool.false_ne_true,
    if_neg Bool.false_ne_true, ← isNaN_unpack]
  exact hsum

theorem isNaN_both {x y : Double} (hx : x.isNaN = false) (hy : y.isNaN = false) :
    (Scalar.both x y).isNaN = false := by
  have htop : ∀ {z : Double}, z.isInfinite = true → Scalar.isBottom z = false → z = Scalar.top := by
    intro z hinf hbottom
    have htop : (Scalar.top : Double).bits.toNat = 0x7FF0000000000000 := rfl
    have hlow : (Scalar.bottom : Double).bits.toNat = 0xFFF0000000000000 := rfl
    rw [← Bool.not_eq_true, isBottom_iff] at hbottom
    rw [isInfinite_iff] at hinf
    have hne : z.bits.toNat ≠ 0xFFF0000000000000 := fun h => hbottom (ext_toNat (h.trans hlow.symm))
    have hlt := z.bits.toNat_lt
    refine ext_toNat ?_
    omega
  unfold Scalar.both
  split
  · rfl
  · rename_i hneither
    simp only [Bool.or_eq_true, not_or, Bool.not_eq_true] at hneither
    exact isNaN_add hx hy fun hx hy => (htop hx hneither.1).trans (htop hy hneither.2).symm

end Double

end Categorial
