import Categorial.Proofs.Double.Sums
set_option autoImplicit false

/-!
Rounding keeps the order, so that no sum with a number that is not positive exceeds the other number. A
finite pattern without its sign counts the doubles below it: the exponent in steps of a whole mantissa, and
the mantissa on top.
-/

namespace Categorial

namespace Double

open Float.Model (Format UnpackedFloat totalExponent)
open Float.Model.UnpackedFloat

/-! What shifting a mantissa to the right leaves. -/

/-- The mantissa with its two residual bits behind it. -/
def extended (em : ExtendedMantissa) : Nat := 4 * em.mantissa + 2 * em.roundBit.toNat + em.stickyBit.toNat

theorem extended_shiftRightOne (em : ExtendedMantissa) :
    extended em.shiftRightOne = 2 * (extended em / 4) + min 1 (extended em % 4) := by
  obtain ⟨m, r, s⟩ := em
  have hbit : (m % 2 != 0).toNat = m % 2 := by
    obtain h | h := Nat.mod_two_eq_zero_or_one m <;> simp [h]
  simp only [extended, ExtendedMantissa.shiftRightOne, hbit]
  cases r <;> cases s <;> simp <;> omega

/-- To the nearest, and half way between two to the even one. -/
def nearest (n : Nat) : Nat := n / 4 + (n % 4 + 1 + n / 4 % 2) / 4

theorem roundedMantissa_eq (em : ExtendedMantissa) : em.roundedMantissa = nearest (extended em) := by
  obtain ⟨m, r, s⟩ := em
  have hdiv (k : Nat) (hk : k < 4) : (4 * m + k) / 4 = m := by omega
  have hmod (k : Nat) (hk : k < 4) : (4 * m + k) % 4 = k := by omega
  cases r <;> cases s <;>
    simp only [extended, ExtendedMantissa.roundedMantissa, ExtendedMantissa.accuracy,
      Accuracy.roundToNearestEven, Bool.toNat_true, Bool.toNat_false, nearest, Nat.add_assoc, hdiv, hmod,
      Nat.reduceMul, Nat.reduceAdd, Nat.reduceLT] <;>
    omega

theorem nearest_mono {a b : Nat} (h : a ≤ b) : nearest a ≤ nearest b := by
  have hquotient : a / 4 ≤ b / 4 := Nat.div_le_div_right h
  unfold nearest
  obtain heq | hlt := hquotient.eq_or_lt
  · rw [heq]
    have hrest : a % 4 ≤ b % 4 := by omega
    exact Nat.add_le_add_left (Nat.div_le_div_right (by omega)) _
  · have hone : (a % 4 + 1 + a / 4 % 2) / 4 ≤ 1 := by omega
    omega

theorem extended_shiftRight_mono {em em' : ExtendedMantissa} (n : Nat) (h : extended em ≤ extended em') :
    extended (em >>> n) ≤ extended (em' >>> n) := by
  induction n with
  | zero => exact h
  | succ n ih =>
    have hsucc (em : ExtendedMantissa) : em >>> (n + 1) = (em >>> n).shiftRightOne := rfl
    rw [hsucc, hsucc, extended_shiftRightOne, extended_shiftRightOne]
    omega

/-- A mantissa without its last bits, rounded by them. -/
def shortened (m n : Nat) : Nat := (ExtendedMantissa.ofMantissaAndAccuracy m .exact >>> n).roundedMantissa

theorem shortened_mono {m m' : Nat} (h : m ≤ m') (n : Nat) : shortened m n ≤ shortened m' n := by
  have hexact (m : Nat) : extended (.ofMantissaAndAccuracy m .exact) = 4 * m := rfl
  have hle : extended (.ofMantissaAndAccuracy m .exact) ≤ extended (.ofMantissaAndAccuracy m' .exact) := by
    rw [hexact, hexact]
    omega
  have hshift := extended_shiftRight_mono n hle
  rw [shortened, shortened, roundedMantissa_eq, roundedMantissa_eq]
  exact nearest_mono hshift

theorem ofMantissa_shiftRight (m n : Nat) : ExtendedMantissa.ofMantissaAndAccuracy (m * 2 ^ n) .exact >>> n =
    .ofMantissaAndAccuracy m .exact := by
  induction n generalizing m with
  | zero => simp [HShiftRight.hShiftRight, Nat.repeat]
  | succ n ih =>
    have hdouble : m * 2 ^ (n + 1) = 2 * m * 2 ^ n := by ring
    have hsucc (em : ExtendedMantissa) : em >>> (n + 1) = (em >>> n).shiftRightOne := rfl
    rw [hsucc, hdouble, ih]
    simp [ExtendedMantissa.shiftRightOne, ExtendedMantissa.ofMantissaAndAccuracy]

theorem shortened_mul_add (m n d : Nat) : shortened (m * 2 ^ d) (n + d) = shortened m n := by
  have hadd (em : ExtendedMantissa) : em >>> (n + d) = (em >>> d) >>> n := by
    induction n with
    | zero => rw [Nat.zero_add]; rfl
    | succ n ih =>
      have hsucc (em : ExtendedMantissa) (n : Nat) : em >>> (n + 1) = (em >>> n).shiftRightOne := rfl
      rw [Nat.add_right_comm, hsucc, ih, hsucc]
  rw [shortened, hadd, ofMantissa_shiftRight]
  rfl

theorem shortened_mul (m n : Nat) : shortened (m * 2 ^ n) n = m := by
  rw [shortened, ofMantissa_shiftRight]
  rfl

theorem shortened_le {m n k : Nat} (h : m ≤ k * 2 ^ n) : shortened m n ≤ k :=
  (shortened_mono h n).trans_eq (shortened_mul k n)

theorem le_shortened {m n k : Nat} (h : k * 2 ^ n ≤ m) : k ≤ shortened m n :=
  (shortened_mul k n).symm.trans_le (shortened_mono h n)

/-! What rounding makes of a mantissa and its exponent. -/

/-- The exponent to which a mantissa with an exponent is rounded. -/
def place (m : Nat) (e : Int) : Int := Format.binary64.targetExponent (totalExponent m e)

theorem place_eq (m : Nat) (e : Int) : place m e = max (m.log2 + e - 52) (-1074) := by
  have hbits : (Format.binary64.mantissaBits : Int) = 53 := rfl
  have hmin : Format.binary64.minExponent = -1074 := rfl
  rw [place, Format.targetExponent, totalExponent, hbits, hmin]
  omega

def settled (m : Nat) (e : Int) : Nat := shortened (m * 2 ^ (e - place m e).toNat) (place m e - e).toNat

theorem settled_le (m : Nat) (e : Int) : settled m e ≤ 2 ^ 53 := by
  have hplace := place_eq m e
  have hlog : m < 2 ^ (m.log2 + 1) := Nat.lt_log2_self
  refine shortened_le ?_
  calc m * 2 ^ (e - place m e).toNat
      ≤ 2 ^ (m.log2 + 1) * 2 ^ (e - place m e).toNat := Nat.mul_le_mul_right _ hlog.le
    _ = 2 ^ (m.log2 + 1 + (e - place m e).toNat) := (pow_add ..).symm
    _ ≤ 2 ^ (53 + (place m e - e).toNat) := Nat.pow_le_pow_right (by decide) (by omega)
    _ = 2 ^ 53 * 2 ^ (place m e - e).toNat := pow_add ..

theorem le_settled {m : Nat} (hm : 0 < m) {e : Int} (h : -1074 < place m e) : 2 ^ 52 ≤ settled m e := by
  have hplace := place_eq m e
  have hlog : 2 ^ m.log2 ≤ m := Nat.log2_self_le hm.ne'
  refine le_shortened ?_
  calc 2 ^ 52 * 2 ^ (place m e - e).toNat
      = 2 ^ (52 + (place m e - e).toNat) := (pow_add ..).symm
    _ = 2 ^ (m.log2 + (e - place m e).toNat) := congrArg (2 ^ ·) (by omega)
    _ = 2 ^ m.log2 * 2 ^ (e - place m e).toNat := pow_add ..
    _ ≤ m * 2 ^ (e - place m e).toNat := Nat.mul_le_mul_right _ hlog

/-- A rounded mantissa may have one bit too many. -/
def finish (s : Sign) (m : Nat) (e : Int) : UnpackedFloat :=
  if h : m = 0 then .zero s
  else if m < 2 ^ 53 then .finite s m e (Nat.pos_of_ne_zero h)
  else .finite s (2 ^ 52) (e + 1) (by decide)

theorem shiftToTargetExponent_eq (m : Nat) (e : Int) : shiftToTargetExponent Format.binary64 m e .exact =
    (ExtendedMantissa.ofMantissaAndAccuracy m .exact >>> (place m e - e).toNat,
      e + (place m e - e).toNat) := rfl

def closed (s : Sign) (rest : ExtendedMantissa × Int) : UnpackedFloat :=
  if h : rest.1.mantissa = 0 then .zero s else .finite s rest.1.mantissa rest.2 (Nat.pos_of_ne_zero h)

theorem closed_shiftToTargetExponent (s : Sign) {m : Nat} (hm : m ≤ 2 ^ 53) {e : Int} (he : -1074 ≤ e) :
    closed s (shiftToTargetExponent Format.binary64 m e .exact) = finish s m e := by
  have hplace := place_eq m e
  rw [shiftToTargetExponent_eq]
  obtain hlt | rfl := hm.lt_or_eq
  · have hlog : m.log2 ≤ 52 := by
      by_cases hzero : m = 0
      · simp [hzero]
      · exact Nat.lt_succ_iff.mp ((Nat.log2_lt hzero).mpr hlt)
    have hnone : (place m e - e).toNat = 0 := by omega
    simp only [hnone, finish, if_pos hlt, Int.natCast_zero, Int.add_zero]
    rfl
  · rw [Nat.log2_two_pow] at hplace
    have hone : (place (2 ^ 53) e - e).toNat = 1 := by omega
    rw [hone]
    rfl

theorem roundWithAccuracy_eq (s : Sign) (m : Nat) {e : Int} (he : e ≤ place m e)
    (hm : shortened m (place m e - e).toNat ≤ 2 ^ 53) :
    roundWithAccuracy Format.binary64 s m e .exact =
      finish s (shortened m (place m e - e).toNat) (place m e) := by
  have hplace := place_eq m e
  have hexponent : e + ((place m e - e).toNat : Int) = place m e := by omega
  have hround : roundWithAccuracy Format.binary64 s m e .exact = closed s (shiftToTargetExponent
      Format.binary64 (shortened m (place m e - e).toNat) (e + (place m e - e).toNat) .exact) := rfl
  rw [hround, hexponent]
  exact closed_shiftToTargetExponent s hm (by omega)

theorem round_eq (s : Sign) {m : Nat} (hm : 0 < m) (e : Int) :
    UnpackedFloat.round Format.binary64 s m e = finish s (settled m e) (place m e) := by
  have hdecrease : UnpackedFloat.round Format.binary64 s m e = roundWithAccuracy Format.binary64 s
      (m <<< (e - place m e).toNat) (e - (e - place m e).toNat) .exact := rfl
  have hlog (n : Nat) : (m * 2 ^ n).log2 = m.log2 + n := by
    induction n with
    | zero => rw [pow_zero, Nat.mul_one, Nat.add_zero]
    | succ n ih =>
      have hpos : m * 2 ^ n ≠ 0 := by positivity
      rw [pow_succ', Nat.mul_left_comm, Nat.log2_two_mul hpos, ih, Nat.add_assoc]
  have hplace := place_eq m e
  have hsame : place (m * 2 ^ (e - place m e).toNat) (e - (e - place m e).toNat) = place m e := by
    rw [place_eq, hlog, hplace]
    omega
  have hshift : (place m e - (e - (e - place m e).toNat)).toNat = (place m e - e).toNat := by omega
  rw [hdecrease, Nat.shiftLeft_eq]
  have hbound := settled_le m e
  rw [roundWithAccuracy_eq, hsame, hshift]
  · rfl
  · rw [hsame]
    omega
  · rw [hsame, hshift]
    exact hbound

def count (m : Nat) (e : Int) : Nat := (e + 1074).toNat * 2 ^ 52 + m

/-- Mantissas and exponents as the patterns of doubles have them. -/
structure Canonical (m : Nat) (e : Int) : Prop where
  pos : 0 < m
  lt : m < 2 ^ 53
  exponent : -1074 ≤ e
  normal : -1074 < e → 2 ^ 52 ≤ m

section

variable {m k : Nat} {e t : Int} (hm : 0 < m) (hk : Canonical k t) (he : e ≤ t)

include hm hk he

theorem count_settled_le (h : m ≤ k * 2 ^ (t - e).toNat) : count (settled m e) (place m e) ≤ count k t := by
  have hplace := place_eq m e
  have hlog : m.log2 < 53 + (t - e).toNat := by
    refine (Nat.log2_lt hm.ne').mpr (h.trans_lt ?_)
    rw [pow_add]
    exact Nat.mul_lt_mul_of_pos_right hk.lt (by positivity)
  have hle : place m e ≤ t := by
    have hexponent := hk.exponent
    omega
  obtain heq | hlt := hle.eq_or_lt
  · have hnone : (e - t).toNat = 0 := by omega
    have hsettled : settled m e ≤ k := by
      rw [settled, heq, hnone]
      exact shortened_le (by simpa using h)
    rw [heq]
    exact Nat.add_le_add_left hsettled _
  · have hsettled := settled_le m e
    have hnormal := hk.normal (by omega)
    unfold count
    omega

theorem le_count_settled (h : k * 2 ^ (t - e).toNat ≤ m) : count k t ≤ count (settled m e) (place m e) := by
  have hplace := place_eq m e
  have hle : t ≤ place m e := by
    by_cases hleast : t = -1074
    · omega
    · have hexponent := hk.exponent
      have hlog : 52 + (t - e).toNat ≤ m.log2 := by
        refine (Nat.le_log2 hm.ne').mpr (le_trans ?_ h)
        rw [pow_add]
        exact Nat.mul_le_mul_right _ (hk.normal (by omega))
      omega
  obtain heq | hlt := hle.eq_or_lt
  · have hnone : (e - t).toNat = 0 := by omega
    have hsettled : k ≤ settled m e := by
      rw [settled, ← heq, hnone]
      exact le_shortened (by simpa using h)
    rw [← heq]
    exact Nat.add_le_add_left hsettled _
  · have hexponent := hk.exponent
    have hsettled := le_settled hm (e := e) (by omega)
    have hbits := hk.lt
    unfold count
    omega

end

/-! Patterns. -/

theorem packComponents_toNat (s : Sign) (e : BitVec Format.binary64.exponentBits)
    (m : BitVec Format.binary64.mantissaBitsWithoutImplicit) :
    (packComponents Format.binary64 s e m).toNat = s.toBitVec.toNat * 2 ^ 63 + e.toNat * 2 ^ 52 + m.toNat := by
  have hm : m.toNat < 2 ^ 52 := m.isLt
  have he : e.toNat < 2 ^ 11 := e.isLt
  rw [packComponents, BitVec.toNat_append, BitVec.toNat_append, ← Nat.shiftLeft_add_eq_or_of_lt m.isLt,
    ← Nat.shiftLeft_add_eq_or_of_lt e.isLt, Nat.shiftLeft_eq, Nat.shiftLeft_eq]
  simp only [Format.binary64]
  ring

/-- As many as there are doubles with the sign below infinity. -/
def countInfinity : Nat := 2047 * 2 ^ 52

theorem pack_finite_toNat (s : Sign) {m : Nat} {e : Int} (h : Canonical m e) :
    (pack Format.binary64 (.finite s m e h.pos)).toNat =
      s.toBitVec.toNat * 2 ^ 63 + min (count m e) countInfinity := by
  have hbias : (Format.binary64.exponentBias : Int) = 1023 := rfl
  have hexponent := h.exponent
  have hbits := h.lt
  have hnormal := h.normal
  have hlog : m.log2 + 1 = 53 ↔ 2 ^ 52 ≤ m := by
    rw [← Nat.le_log2 h.pos.ne']
    have hlt := (Nat.log2_lt h.pos.ne').mpr hbits
    omega
  have hwidth : (Format.binary64.mantissaBitsWithoutImplicit : Int) = 52 := rfl
  unfold pack
  dsimp only
  rw [hbias, hwidth]
  split
  · rename_i hlarge
    have hlarge : 2 ^ 11 ≤ (e + 1023 + 52).toNat + 1 := hlarge
    have hinfinity : countInfinity ≤ count m e := by
      unfold countInfinity count
      omega
    have hlargest : (-BitVec.ofNat Format.binary64.exponentBits 1).toNat = 2047 := rfl
    have hzero : (0 : BitVec Format.binary64.mantissaBitsWithoutImplicit).toNat = 0 := rfl
    rw [packedInfinity, packComponents_toNat, Nat.min_eq_right hinfinity, hlargest, hzero, Nat.add_zero]
    rfl
  · rename_i hlarge
    have hlarge : ¬2 ^ 11 ≤ (e + 1023 + 52).toNat + 1 := hlarge
    have hfinite : count m e ≤ countInfinity := by
      unfold countInfinity count
      omega
    rw [Nat.min_eq_left hfinite]
    split
    · rename_i hbit
      have hge := hlog.mp hbit
      have he : (BitVec.ofNat Format.binary64.exponentBits (e + 1023 + 52).toNat).toNat =
          (e + 1023 + 52).toNat % 2 ^ 11 := rfl
      have hm : (BitVec.ofNat Format.binary64.mantissaBitsWithoutImplicit m).toNat = m % 2 ^ 52 := rfl
      have hmod : m % 2 ^ 52 = m - 2 ^ 52 := by omega
      have hrest : (e + 1023 + 52).toNat * 2 ^ 52 + (m - 2 ^ 52) = count m e := by
        unfold count
        omega
      have hbiased : (e + 1023 + 52).toNat % 2 ^ 11 = (e + 1023 + 52).toNat := by omega
      rw [packComponents_toNat, he, hm, hmod, hbiased, Nat.add_assoc, hrest]
    · rename_i hbit
      have hlt := mt hlog.mpr hbit
      obtain rfl : e = -1074 := by omega
      have he : (BitVec.ofNat Format.binary64.exponentBits 0).toNat = 0 := rfl
      have hm : (BitVec.ofNat Format.binary64.mantissaBitsWithoutImplicit m).toNat = m % 2 ^ 52 := rfl
      have hmod : m % 2 ^ 52 = m := Nat.mod_eq_of_lt (not_le.mp hlt)
      have hcount : count m (-1074) = m := Nat.zero_add m
      rw [packComponents_toNat, he, hm, hmod, hcount]
      omega

/-- What a number counts from zero on, downwards if it is negative. -/
def signedOf (u : UnpackedFloat) : Int := signed ⟨UInt64.ofBitVec (pack Format.binary64 u)⟩

theorem signedOf_eq {u : UnpackedFloat} {s : Sign} {n : Nat} (hn : n ≤ countInfinity)
    (h : (pack Format.binary64 u).toNat = s.toBitVec.toNat * 2 ^ 63 + n) : signedOf u = s.apply n := by
  have hbits : (UInt64.ofBitVec (pack Format.binary64 u)).toNat = s.toBitVec.toNat * 2 ^ 63 + n := h
  have hlt : n < 2 ^ 63 := hn.trans_lt (by decide)
  rw [signedOf, signed, hbits]
  cases s with
  | positive =>
    simp [Sign.toBitVec, Sign.apply]
    omega
  | negative => simp [Sign.toBitVec, Sign.apply]

theorem signedOf_finite (s : Sign) {m : Nat} {e : Int} (h : Canonical m e) :
    signedOf (.finite s m e h.pos) = s.apply (min (count m e) countInfinity : Nat) :=
  signedOf_eq (Nat.min_le_right ..) (pack_finite_toNat s h)

theorem signedOf_zero (s : Sign) : signedOf (.zero s) = 0 := by
  cases s <;> rfl

theorem signedOf_infinity (s : Sign) : signedOf (.infinity s) = s.apply countInfinity := by
  cases s <;> rfl

theorem signedOf_finish (s : Sign) {m : Nat} (hm : m ≤ 2 ^ 53) {e : Int} (he : -1074 ≤ e)
    (hnormal : -1074 < e → 2 ^ 52 ≤ m) :
    signedOf (finish s m e) = s.apply (min (count m e) countInfinity : Nat) := by
  unfold finish
  split
  · rename_i hzero
    obtain rfl : e = -1074 := by omega
    rw [signedOf_zero, hzero]
    cases s <;> rfl
  · rename_i hzero
    split
    · rename_i hlt
      exact signedOf_finite s ⟨Nat.pos_of_ne_zero hzero, hlt, he, hnormal⟩
    · rename_i hlt
      obtain rfl : m = 2 ^ 53 := by omega
      have hcount : count (2 ^ 52) (e + 1) = count (2 ^ 53) e := by
        unfold count
        omega
      rw [← hcount]
      exact signedOf_finite s ⟨by decide, by decide, by omega, fun _ => Nat.le_refl _⟩

theorem signedOf_settled (s : Sign) {m : Nat} (hm : 0 < m) (e : Int) :
    signedOf (finish s (settled m e) (place m e)) =
      s.apply (min (count (settled m e) (place m e)) countInfinity : Nat) := by
  have hplace := place_eq m e
  exact signedOf_finish s (settled_le m e) (by omega) (le_settled hm)

theorem signedOf_round (s : Sign) {m : Nat} (hm : 0 < m) (e : Int) :
    signedOf (UnpackedFloat.round Format.binary64 s m e) =
      s.apply (min (count (settled m e) (place m e)) countInfinity : Nat) := by
  rw [round_eq s hm, signedOf_settled s hm]

theorem canonical_of_unpack {b : BitVec Format.binary64.numBits} {s : Sign} {m : Nat} {e : Int} {hm : 0 < m}
    (h : UnpackedFloat.unpack Format.binary64 b = .finite s m e hm) : Canonical m e := by
  have hbias : (Format.binary64.exponentBias : Int) = 1023 := rfl
  have hwidth : (Format.binary64.mantissaBitsWithoutImplicit : Int) = 52 := rfl
  have hmantissa : (unpackMantissa b).toNat < 2 ^ 52 := (unpackMantissa b).isLt
  unfold UnpackedFloat.unpack at h
  dsimp only at h
  rw [hbias, hwidth] at h
  split_ifs at h with hall hinf hzero hempty
  · simp only [UnpackedFloat.finite.injEq] at h
    obtain ⟨-, rfl, rfl⟩ := h
    have hexponent : ((unpackExponent b).toNat : Int) - (1023 + 52) + 1 = -1074 := by
      rw [hzero]
      rfl
    exact ⟨hm, by omega, by omega, by omega⟩
  · simp only [UnpackedFloat.finite.injEq] at h
    obtain ⟨-, rfl, rfl⟩ := h
    have hexponent : (unpackExponent b).toNat ≠ 0 := fun heq => hzero (BitVec.toNat_inj.mp heq)
    have himplicit : (1#1 ++ unpackMantissa b).toNat = 2 ^ 52 + (unpackMantissa b).toNat := by
      rw [BitVec.toNat_append, ← Nat.shiftLeft_add_eq_or_of_lt (unpackMantissa b).isLt]
      rfl
    exact ⟨hm, by omega, by omega, by omega⟩

/-! Sums. -/

theorem pack_unpack_bits {x : Double} (hx : x.isNaN = false) :
    pack Format.binary64 (UnpackedFloat.unpack Format.binary64 x.bits.toBitVec) = x.bits.toBitVec := by
  have hbits : @isNaNBits Format.binary64 x.bits.toBitVec = false := by
    rw [← isNaN_unpack, ← Bool.not_eq_true, isNaN_unpack_iff] at hx
    simpa [isNaNBits] using hx
  rw [pack_unpack, hbits]
  rfl

theorem signed_eq {x : Double} (hx : x.isNaN = false) :
    x.signed = signedOf (UnpackedFloat.unpack Format.binary64 x.bits.toBitVec) := by
  rw [signedOf, pack_unpack_bits hx]

theorem unpack_toFloat {x : Double} (hx : x.isNaN = false) :
    UnpackedFloat.unpack Format.binary64 x.toFloat.toModel.toBits.toBitVec =
      UnpackedFloat.unpack Format.binary64 x.bits.toBitVec :=
  congrArg (UnpackedFloat.unpack Format.binary64) (pack_unpack_bits hx)

theorem add_eq {x y : Double} (hx : x.isNaN = false) (hy : y.isNaN = false) (hsum : (x + y).isNaN = false) :
    ∃ u : UnpackedFloat, u = UnpackedFloat.add Format.binary64
        (UnpackedFloat.unpack Format.binary64 x.bits.toBitVec)
        (UnpackedFloat.unpack Format.binary64 y.bits.toBitVec) ∧
      u.isNaN = false ∧ (x + y).signed = signedOf u := by
  have hadd : x + y = ofResult (x.toFloat + y.toFloat) := by
    have hbinary : x + y = binary (· + ·) x y := rfl
    rw [hbinary, binary, hx, hy]
    rfl
  have hnumber : (x.toFloat + y.toFloat).isNaN = false := by
    refine Bool.eq_false_iff.mpr fun h => ?_
    rw [hadd, ofResult, if_pos h] at hsum
    exact absurd hsum (by decide)
  refine ⟨_, rfl, ?_, ?_⟩
  · rw [← unpack_toFloat hx, ← unpack_toFloat hy]
    exact (isNaN_unpack_pack _).symm.trans hnumber
  · rw [hadd, ofResult, hnumber, ← unpack_toFloat hx, ← unpack_toFloat hy]
    rfl

theorem signedOf_normalize_le {s : Sign} {k : Nat} {t e : Int} (hk : Canonical k t) (he : e ≤ t) {n : Int}
    (hn : n ≤ s.apply (k * 2 ^ (t - e).toNat : Nat)) :
    signedOf (UnpackedFloat.normalize Format.binary64 n e .positive) ≤
      s.apply (min (count k t) countInfinity : Nat) := by
  have hpos : 0 < k * 2 ^ (t - e).toNat := Nat.mul_pos hk.pos (by positivity)
  unfold UnpackedFloat.normalize
  cases hsign : compare n 0 with
  | lt =>
    have hnegative : n < 0 := compare_lt_iff_lt.mp hsign
    dsimp only
    rw [signedOf_round .negative (by omega) e]
    cases s with
    | positive =>
      simp only [Sign.apply]
      omega
    | negative =>
      simp only [Sign.apply] at hn ⊢
      have hcount := le_count_settled (m := (-n).toNat) (by omega) hk he (by omega)
      omega
  | eq =>
    have hzero : n = 0 := compare_eq_iff_eq.mp hsign
    dsimp only
    rw [signedOf_zero]
    cases s with
    | positive => exact Int.natCast_nonneg _
    | negative =>
      simp only [Sign.apply] at hn
      omega
  | gt =>
    have hpositive : 0 < n := compare_gt_iff_gt.mp hsign
    dsimp only
    rw [signedOf_round .positive (by omega) e]
    cases s with
    | positive =>
      simp only [Sign.apply] at hn ⊢
      have hcount := count_settled_le (m := n.toNat) (by omega) hk he (by omega)
      omega
    | negative =>
      simp only [Sign.apply] at hn
      omega

theorem signedOf_add_le {u v : UnpackedFloat} (hun : u.isNaN = false) (hvn : v.isNaN = false)
    (hsum : (UnpackedFloat.add Format.binary64 u v).isNaN = false)
    (hu : ∀ s m e hm, u = .finite s m e hm → Canonical m e)
    (hv : ∀ s m e hm, v = .finite s m e hm → Canonical m e) (hneg : signedOf v ≤ 0) :
    signedOf (UnpackedFloat.add Format.binary64 u v) ≤ signedOf u := by
  cases u with
  | notANumber => cases hun
  | infinity s =>
    cases v with
    | notANumber => cases hvn
    | infinity t =>
      cases s <;> cases t
      · exact le_refl _
      · cases hsum
      · cases hsum
      · exact le_refl _
    | zero => exact le_refl _
    | finite => exact le_refl _
  | zero s =>
    rw [signedOf_zero]
    cases v with
    | notANumber => cases hvn
    | infinity => exact hneg
    | zero t => cases s <;> cases t <;> exact (signedOf_zero _).le
    | finite => exact hneg
  | finite s m e hm =>
    have hcanonical := hu s m e hm rfl
    rw [signedOf_finite s hcanonical]
    cases v with
    | notANumber => cases hvn
    | infinity t =>
      have hinfinity : UnpackedFloat.add Format.binary64 (.finite s m e hm) (.infinity t) = .infinity t := rfl
      rw [hinfinity]
      rw [signedOf_infinity] at hneg ⊢
      cases t with
      | positive => exact absurd hneg (by decide)
      | negative => cases s <;> simp only [Sign.apply] <;> omega
    | zero => exact (signedOf_finite s hcanonical).le
    | finite t k e' hk =>
      have hcanonical' := hv t k e' hk rfl
      rw [signedOf_finite t hcanonical'] at hneg
      cases t with
      | positive =>
        have hcount : 0 < count k e' := Nat.add_pos_right _ hk
        have hsome : 0 < countInfinity := by decide
        simp only [Sign.apply] at hneg
        omega
      | negative =>
        refine signedOf_normalize_le hcanonical (min_le_left e e') ?_
        simp only [Nat.shiftLeft_eq, Sign.apply]
        omega

/-- Adding a number that is not positive does not make a number larger. -/
theorem signed_add_le {x y : Double} (hx : x.isNaN = false) (hy : y.isNaN = false) (hneg : y.signed ≤ 0)
    (hsum : (x + y).isNaN = false) : (x + y).signed ≤ x.signed := by
  obtain ⟨_, rfl, hnumber, heq⟩ := add_eq hx hy hsum
  rw [heq, signed_eq hx]
  rw [signed_eq hy] at hneg
  exact signedOf_add_le ((isNaN_unpack x).trans hx) ((isNaN_unpack y).trans hy) hnumber
    (fun _ _ _ _ => canonical_of_unpack) (fun _ _ _ _ => canonical_of_unpack) hneg

end Double

end Categorial
