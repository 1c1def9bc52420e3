import Categorial.Proofs.Double.Rounding
set_option autoImplicit false

namespace Categorial

namespace Double

open Float.Model (Format UnpackedFloat)
open Float.Model.UnpackedFloat

-- Counts and the numbers behind them are in the same order.

theorem Canonical.of_count_le {m k : Nat} {e t : Int} (hm : Canonical m e) (hk : Canonical k t)
    (h : count m e ≤ count k t) : e ≤ t ∧ m ≤ k * 2 ^ (t - e).toNat := by
  have hmlt := hm.lt
  have hklt := hk.lt
  have hmnormal := hm.normal
  have hmexponent := hm.exponent
  have hkexponent := hk.exponent
  unfold count at h
  have hle : e ≤ t := by omega
  refine ⟨hle, ?_⟩
  obtain rfl | hlt := hle.eq_or_lt
  · have hsame : m ≤ k := Nat.le_of_add_le_add_left h
    simpa using hsame
  · have hknormal := hk.normal (by omega)
    calc m ≤ 2 ^ 52 * 2 ^ 1 := by omega
      _ ≤ 2 ^ 52 * 2 ^ (t - e).toNat := Nat.mul_le_mul_left _ (Nat.pow_le_pow_right (by decide) (by omega))
      _ ≤ k * 2 ^ (t - e).toNat := Nat.mul_le_mul_right _ hknormal

theorem count_settled_mono {m k : Nat} {e t : Int} (hm : 0 < m) (hk : 0 < k) (het : e ≤ t)
    (ht : t ≤ place k t) (h : m ≤ k * 2 ^ (t - e).toNat) :
    count (settled m e) (place m e) ≤ count (settled k t) (place k t) := by
  have hplace := place_eq m e
  have hplace' := place_eq k t
  have hlog : m.log2 ≤ k.log2 + (t - e).toNat := by
    have hlt : m < 2 ^ (k.log2 + (t - e).toNat + 1) := by
      calc m ≤ k * 2 ^ (t - e).toNat := h
        _ < 2 ^ (k.log2 + 1) * 2 ^ (t - e).toNat :=
          Nat.mul_lt_mul_of_pos_right Nat.lt_log2_self (by positivity)
        _ = 2 ^ (k.log2 + (t - e).toNat + 1) := by rw [← pow_add]; congr 1; omega
    exact Nat.lt_succ_iff.mp ((Nat.log2_lt hm.ne').mpr hlt)
  have hle : place m e ≤ place k t := by omega
  obtain heq | hlt := hle.eq_or_lt
  · have hnone : (e - place k t).toNat = 0 := by omega
    have hnone' : (t - place k t).toNat = 0 := by omega
    have hsplit : (place k t - e).toNat = (place k t - t).toNat + (t - e).toNat := by omega
    have hsettled : settled m e ≤ settled k t := by
      rw [settled, settled, heq, hnone, hnone', pow_zero, Nat.mul_one, Nat.mul_one, hsplit]
      exact (shortened_mono h _).trans_eq (shortened_mul_add ..)
    rw [heq]
    exact Nat.add_le_add_left hsettled _
  · have hsettled := settled_le m e
    have hsettled' := le_settled hk (e := t) (by omega)
    unfold count
    omega

-- What a product is made of.

/-- The exponents together are not above the place of the product. -/
theorem Canonical.le_place {m k : Nat} {e t : Int} (hm : Canonical m e) (hk : Canonical k t) :
    e + t ≤ place (m * k) (e + t) := by
  have hplace := place_eq (m * k) (e + t)
  have hpos : 0 < m * k := Nat.mul_pos hm.pos hk.pos
  by_cases hlarge : 2 ^ 52 ≤ m * k
  · have hlog := (Nat.le_log2 hpos.ne').mpr hlarge
    omega
  · have hmle : m ≤ m * k := Nat.le_mul_of_pos_right m hk.pos
    have hkle : k ≤ m * k := Nat.le_mul_of_pos_left k hm.pos
    have hmnormal := hm.normal
    have hknormal := hk.normal
    omega

theorem mul_finite (s t : Sign) {m k : Nat} {e e' : Int} (hm : Canonical m e) (hk : Canonical k e') :
    UnpackedFloat.mul Format.binary64 (.finite s m e hm.pos) (.finite t k e' hk.pos) =
      finish (s * t) (settled (m * k) (e + e')) (place (m * k) (e + e')) := by
  have hle := hm.le_place hk
  have hnone : (e + e' - place (m * k) (e + e')).toNat = 0 := by omega
  have hsettled : settled (m * k) (e + e') =
      shortened (m * k) (place (m * k) (e + e') - (e + e')).toNat := by
    rw [settled, hnone, pow_zero, Nat.mul_one]
  have hmul : UnpackedFloat.mul Format.binary64 (.finite s m e hm.pos) (.finite t k e' hk.pos) =
      roundWithAccuracy Format.binary64 (s * t) (m * k) (e + e') .exact := rfl
  have hbound := settled_le (m * k) (e + e')
  rw [hsettled] at hbound ⊢
  rw [hmul, roundWithAccuracy_eq _ _ hle hbound]

theorem isNaN_finish (s : Sign) (m : Nat) (e : Int) : (finish s m e).isNaN = false := by
  unfold finish
  split_ifs <;> rfl

theorem mul_eq {x y : Double} (hx : x.isNaN = false) (hy : y.isNaN = false) {u : UnpackedFloat}
    (hu : UnpackedFloat.mul Format.binary64 (UnpackedFloat.unpack Format.binary64 x.bits.toBitVec)
      (UnpackedFloat.unpack Format.binary64 y.bits.toBitVec) = u) (hnumber : u.isNaN = false) :
    (x * y).isNaN = false ∧ (x * y).signed = signedOf u := by
  rw [← unpack_toFloat hx, ← unpack_toFloat hy] at hu
  have hproduct : (x.toFloat * y.toFloat).isNaN = false :=
    (isNaN_unpack_pack _).trans (hu ▸ hnumber)
  have hmul : x * y = ofResult (x.toFloat * y.toFloat) := by
    have hbinary : x * y = binary (· * ·) x y := rfl
    rw [hbinary, binary, hx, hy]
    rfl
  rw [hmul, ofResult, hproduct, if_neg Bool.false_ne_true]
  refine ⟨?_, ?_⟩
  · rw [← isNaN_unpack]
    exact hproduct
  · rw [← hu]
    rfl

-- Fractions.

/-- Above zero and not above one. -/
structure Fraction (x : Double) : Prop where
  pos : Scalar.lt Scalar.zero x = true
  le_one : Scalar.le x Scalar.one = true

theorem canonical_one : Canonical (2 ^ 52) (-52) := ⟨by decide, by decide, by decide, fun _ => le_refl _⟩

theorem Fraction.number {x : Double} (h : x.Fraction) : x.isNaN = false := (le_iff.mp h.le_one).1

theorem Fraction.signed_pos {x : Double} (h : x.Fraction) : 0 < x.signed := by
  have hle := (totalOn.lt_iff Scalar.zero x rfl h.number).mp h.pos
  rw [← Bool.not_eq_true, le_iff] at hle
  exact not_le.mp fun hneg => hle ⟨h.number, rfl, hneg⟩

theorem Fraction.unpack {x : Double} (h : x.Fraction) : ∃ k t, ∃ hk : Canonical k t,
    UnpackedFloat.unpack Format.binary64 x.bits.toBitVec = .finite .positive k t hk.pos ∧
      x.signed = min (count k t) countInfinity ∧ t ≤ 0 ∧ k ≤ 2 ^ (-t).toNat := by
  have hpos := h.signed_pos
  have hone : x.signed ≤ count (2 ^ 52) (-52) := (le_iff.mp h.le_one).2.2
  have hsigned := signed_eq h.number
  rw [hsigned] at hpos hone ⊢
  cases hu : UnpackedFloat.unpack Format.binary64 x.bits.toBitVec with
  | notANumber =>
    have hnumber := (isNaN_unpack x).trans h.number
    rw [hu] at hnumber
    cases hnumber
  | zero s =>
    rw [hu, signedOf_zero] at hpos
    exact absurd hpos (lt_irrefl 0)
  | infinity s =>
    rw [hu, signedOf_infinity] at hpos hone
    cases s with
    | negative => exact absurd hpos (by decide)
    | positive => exact absurd hone (by decide)
  | finite s k t hk =>
    have hcanonical := canonical_of_unpack hu
    have hfinite := signedOf_finite s hcanonical
    rw [hu, hfinite] at hpos hone
    cases s with
    | negative =>
      simp only [Sign.apply] at hpos
      omega
    | positive =>
      have hinfinity : count (2 ^ 52) (-52) < countInfinity := by decide
      simp only [Sign.apply] at hone
      have hcount : count k t ≤ count (2 ^ 52) (-52) := by omega
      obtain ⟨hexponent, hmantissa⟩ := hcanonical.of_count_le canonical_one hcount
      refine ⟨k, t, hcanonical, rfl, ?_, by omega, ?_⟩
      · rw [hfinite]
        rfl
      · rw [← pow_add] at hmantissa
        exact hmantissa.trans (Nat.pow_le_pow_right (by decide) (by omega))

-- A number that is not negative times a fraction.

theorem nonneg_iff {x : Double} : Scalar.le Scalar.zero x = true ↔ x.isNaN = false ∧ 0 ≤ x.signed := by
  have hzero : (Scalar.zero : Double).signed = 0 := rfl
  rw [le_iff, hzero]
  exact ⟨fun h => h.2, fun h => ⟨rfl, h⟩⟩

theorem unpack_of_nonneg {x : Double} (hx : Scalar.le Scalar.zero x = true) :
    UnpackedFloat.unpack Format.binary64 x.bits.toBitVec = .infinity .positive ∨
      (∃ s, UnpackedFloat.unpack Format.binary64 x.bits.toBitVec = .zero s) ∨
      ∃ m e, ∃ hm : Canonical m e,
        UnpackedFloat.unpack Format.binary64 x.bits.toBitVec = .finite .positive m e hm.pos := by
  obtain ⟨hnumber, hpos⟩ := nonneg_iff.mp hx
  rw [signed_eq hnumber] at hpos
  cases hu : UnpackedFloat.unpack Format.binary64 x.bits.toBitVec with
  | notANumber =>
    have hnumber := (isNaN_unpack x).trans hnumber
    rw [hu] at hnumber
    cases hnumber
  | zero s => exact .inr (.inl ⟨s, rfl⟩)
  | infinity s =>
    rw [hu, signedOf_infinity] at hpos
    cases s with
    | negative => exact absurd hpos (by decide)
    | positive => exact .inl rfl
  | finite s m e hm =>
    have hcanonical := canonical_of_unpack hu
    rw [hu, signedOf_finite s hcanonical] at hpos
    cases s with
    | negative =>
      have hcount : 0 < count m e := Nat.add_pos_right _ hm
      have hsome : 0 < countInfinity := by decide
      simp only [Sign.apply] at hpos
      omega
    | positive => exact .inr (.inr ⟨m, e, hcanonical, rfl⟩)

/-- What a number counts when it is multiplied by one that is given by its mantissa and exponent. -/
def countMul (u : UnpackedFloat) (k : Nat) (t : Int) : Nat :=
  match u with
  | .infinity _ => countInfinity
  | .finite _ m e _ => min (count (settled (m * k) (e + t)) (place (m * k) (e + t))) countInfinity
  | _ => 0

theorem signed_mul {x b : Double} (hx : Scalar.le Scalar.zero x = true) (hb : b.isNaN = false) {k : Nat} {t : Int}
    (hk : Canonical k t)
    (hu : UnpackedFloat.unpack Format.binary64 b.bits.toBitVec = .finite .positive k t hk.pos) :
    (x * b).isNaN = false ∧
      (x * b).signed = countMul (UnpackedFloat.unpack Format.binary64 x.bits.toBitVec) k t := by
  have hproduct {u : UnpackedFloat} := mul_eq (nonneg_iff.mp hx).1 hb (u := u)
  rw [hu] at hproduct
  obtain hux | ⟨s, hux⟩ | ⟨m, e, hm, hux⟩ := unpack_of_nonneg hx <;> rw [hux] at hproduct ⊢
  · exact hproduct rfl rfl
  · have hzero := hproduct (u := .zero (s * .positive)) rfl rfl
    rwa [signedOf_zero] at hzero
  · have hfinite := hproduct (mul_finite _ _ hm hk) (isNaN_finish _ _ _)
    have hsign : Sign.positive * Sign.positive = Sign.positive := rfl
    rwa [hsign, signedOf_settled _ (Nat.mul_pos hm.pos hk.pos)] at hfinite

theorem mul_fraction {x b : Double} (hx : Scalar.le Scalar.zero x = true) (hb : b.Fraction) :
    Scalar.le Scalar.zero (x * b) = true ∧ Scalar.le (x * b) x = true := by
  have hnumber := (nonneg_iff.mp hx).1
  obtain ⟨k, t, hk, hub, -, ht, hone⟩ := hb.unpack
  obtain ⟨hproduct, hsigned⟩ := signed_mul hx hb.number hk hub
  rw [nonneg_iff, le_iff, hsigned]
  refine ⟨⟨hproduct, Int.natCast_nonneg _⟩, hproduct, hnumber, ?_⟩
  rw [signed_eq hnumber]
  obtain hux | ⟨s, hux⟩ | ⟨m, e, hm, hux⟩ := unpack_of_nonneg hx <;> rw [hux]
  · exact le_refl _
  · exact (signedOf_zero s).ge
  · have hexponent : (e - (e + t)).toNat = (-t).toNat := by omega
    have hcount := count_settled_le (e := e + t) (Nat.mul_pos hm.pos hk.pos) hm (by omega)
      ((Nat.mul_le_mul_left m hone).trans_eq (by rw [hexponent]))
    rw [signedOf_finite _ hm]
    exact Int.ofNat_le.mpr (min_le_min_right _ hcount)

theorem mul_fraction_mono {x b c : Double} (hx : Scalar.le Scalar.zero x = true) (hb : b.Fraction)
    (hc : c.Fraction) (hbc : Scalar.le b c = true) : Scalar.le (x * b) (x * c) = true := by
  have hle : b.signed ≤ c.signed := (le_iff.mp hbc).2.2
  obtain ⟨k, t, hk, hub, hsb, hlow, hkone⟩ := hb.unpack
  obtain ⟨n, r, hn, huc, hsc, hlow', hnone⟩ := hc.unpack
  obtain ⟨hproduct, hsigned⟩ := signed_mul hx hb.number hk hub
  obtain ⟨hproduct', hsigned'⟩ := signed_mul hx hc.number hn huc
  rw [le_iff, hsigned, hsigned']
  refine ⟨hproduct, hproduct', Int.ofNat_le.mpr ?_⟩
  obtain hux | ⟨s, hux⟩ | ⟨m, e, hm, hux⟩ := unpack_of_nonneg hx <;> rw [hux]
  · exact le_refl _
  · exact le_refl _
  · have hcount : count k t ≤ count n r := by
      have hklt := hk.lt
      have hnlt := hn.lt
      have hinfinity : countInfinity = 2047 * 2 ^ 52 := rfl
      rw [hsb, hsc] at hle
      unfold count at hle ⊢
      omega
    obtain ⟨htr, hkn⟩ := hk.of_count_le hn hcount
    have hexponent : (e + r - (e + t)).toNat = (r - t).toNat := by omega
    refine min_le_min_right _ (count_settled_mono (Nat.mul_pos hm.pos hk.pos) (Nat.mul_pos hm.pos hn.pos)
      (by omega) (hm.le_place hn) ?_)
    calc m * k ≤ m * (n * 2 ^ (r - t).toNat) := Nat.mul_le_mul_left m hkn
      _ = m * n * 2 ^ (e + r - (e + t)).toNat := by rw [hexponent, Nat.mul_assoc]

end Double

end Categorial
