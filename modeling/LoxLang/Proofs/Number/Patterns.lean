import LoxLang.Number.Text
import Mathlib

/-!
# Patterns of doubles

A pattern of 64 bits is a sign bit and below it the pattern of a magnitude: the dyadic rationals
`Dyadic.ofPattern` in increasing order, then infinity, then what is not a number. The arithmetic of
doubles unpacks a pattern into sign, mantissa and exponent (`unpack_eq`) and loses only what is not
a number. So a pattern up to that of infinity stands for itself (`toBits_ofBits`), and a double that
is an integer becomes this integer of 64 bits (`toInt_toInt64`).
-/

namespace LoxLang.Binary64

open Float.Model UnpackedFloat

/-- The dyadic rational of a pattern without a sign. The mantissas of one exponent follow each
other, and behind the last of them comes the first of the next exponent. -/
def Dyadic.ofPattern (bits : Nat) : Dyadic :=
  ⟨bits - (bits / leadingBit - 1) * leadingBit, leastExponent + (bits / leadingBit - 1 : Nat)⟩

/-- Below infinity the patterns are those of finite doubles. -/
theorem Magnitude.ofBits_of_lt {bits : Nat} (h : bits < infinityBits) :
    Magnitude.ofBits bits = .finite (.ofPattern bits) := by
  have hbiased : bits / leadingBit < 2047 := Nat.div_lt_of_lt_mul (by rwa [Nat.mul_comm])
  simp only [Magnitude.ofBits, Dyadic.ofPattern]
  split
  next hzero =>
    simp only [leadingBit, fractionBits, Nat.pow_eq] at *
    congr 2 <;> omega
  next hnormal =>
    simp only [leadingBit, fractionBits, Nat.pow_eq] at *
    congr 2 <;> omega

/-- Every finite double has a pattern below infinity. -/
theorem Magnitude.lt_of_ofBits_eq {bits : Nat} {x : Dyadic}
    (h : Magnitude.ofBits bits = .finite x) : bits < infinityBits := by
  rw [infinityBits, ← Nat.div_lt_iff_lt_mul (by decide)]
  simp only [Magnitude.ofBits] at h
  split at h
  · omega
  · split at h
    · assumption
    · split at h <;> cases h

theorem magnitude_eq_finite {n : Float} {x : Dyadic} (h : magnitude n = .finite x) :
    n.toBits.toNat % signBit < infinityBits ∧ x = .ofPattern (n.toBits.toNat % signBit) := by
  have hlt := Magnitude.lt_of_ofBits_eq h
  rw [magnitude, Magnitude.ofBits_of_lt hlt] at h
  exact ⟨hlt, (Magnitude.finite.inj h).symm⟩

/-! ## The fields of a pattern -/

theorem toNat_unpackMantissa (b : BitVec Format.binary64.numBits) :
    (unpackMantissa b).toNat = b.toNat % leadingBit := by
  simp [unpackMantissa, leadingBit, fractionBits]

theorem toNat_unpackExponent (b : BitVec Format.binary64.numBits) :
    (unpackExponent b).toNat = b.toNat % signBit / leadingBit := by
  simp [unpackExponent, leadingBit, fractionBits, signBit, Nat.shiftRight_eq_div_pow]
  omega

theorem toNat_unpackSign (b : BitVec Format.binary64.numBits) :
    (unpackSign b).toNat = b.toNat / signBit := by
  have hb : b.toNat < 2 ^ 64 := b.isLt
  simp [unpackSign, signBit, Nat.shiftRight_eq_div_pow]
  omega

theorem unpackExponent_eq_ones_iff {b : BitVec Format.binary64.numBits} :
    unpackExponent b = -1#_ ↔ b.toNat % signBit / leadingBit = 2047 := by
  rw [← BitVec.toNat_inj, toNat_unpackExponent]
  rfl

theorem unpackExponent_eq_zeros_iff {b : BitVec Format.binary64.numBits} :
    unpackExponent b = 0#_ ↔ b.toNat % signBit / leadingBit = 0 := by
  rw [← BitVec.toNat_inj, toNat_unpackExponent]
  rfl

theorem unpackMantissa_eq_zeros_iff {b : BitVec Format.binary64.numBits} :
    unpackMantissa b = 0#_ ↔ b.toNat % leadingBit = 0 := by
  rw [← BitVec.toNat_inj, toNat_unpackMantissa]
  rfl

/-! ## Unpacking -/

/-- A dyadic rational with a sign, as the arithmetic of doubles unpacks it. -/
def Dyadic.unpacked (sign : BitVec 1) (x : Dyadic) : Float.Model.UnpackedFloat :=
  if hx : x.mantissa = 0 then .zero (.ofBitVec sign)
  else .finite (.ofBitVec sign) x.mantissa x.exponent (Nat.pos_of_ne_zero hx)

/-- A pattern of a finite double is unpacked into its sign and its dyadic rational. -/
theorem unpack_eq {b : BitVec Format.binary64.numBits} (h : b.toNat % signBit < infinityBits) :
    UnpackedFloat.unpack .binary64 b =
      (Dyadic.ofPattern (b.toNat % signBit)).unpacked (unpackSign b) := by
  have hm := toNat_unpackMantissa b
  have he := toNat_unpackExponent b
  have hones := @unpackExponent_eq_ones_iff b
  have hzeros := @unpackExponent_eq_zeros_iff b
  have hzero := @unpackMantissa_eq_zeros_iff b
  have happend : (1#1 ++ unpackMantissa b).toNat = 2 ^ 52 + (unpackMantissa b).toNat := by
    rw [BitVec.toNat_append, ← Nat.shiftLeft_add_eq_or_of_lt (unpackMantissa b).isLt]
    rfl
  have hbias : ((Format.binary64.exponentBias : Nat) +
      (Format.binary64.mantissaBitsWithoutImplicit : Nat) : Int) = 1075 := rfl
  simp only [signBit, leadingBit, fractionBits, infinityBits, Nat.pow_eq, leastExponent,
    Dyadic.ofPattern] at *
  unfold UnpackedFloat.unpack Dyadic.unpacked
  rw [if_neg (mt hones.1 (by omega))]
  split
  next hsubnormal =>
    rw [hzeros] at hsubnormal
    split
    next hmantissa =>
      rw [hzero] at hmantissa
      rw [dif_pos (by dsimp only; omega)]
    next hmantissa =>
      rw [hzero] at hmantissa
      rw [dif_neg (by dsimp only; omega)]
      congr 1 <;> dsimp only <;> omega
  next hnormal =>
    rw [hzeros] at hnormal
    rw [dif_neg (by dsimp only; omega)]
    congr 1 <;> dsimp only <;> omega

/-- A pattern up to that of infinity stands for itself. -/
theorem toBits_ofBits {bits : UInt64} (h : bits.toNat % signBit ≤ infinityBits) :
    (Float.ofBits bits).toBits = bits := by
  let b : BitVec Format.binary64.numBits := bits.toBitVec
  have hnumber : ¬ isNaNBits b := by
    rw [isNaNBits, decide_eq_true_eq]
    rintro ⟨hones, hzero⟩
    rw [unpackExponent_eq_ones_iff] at hones
    rw [ne_eq, unpackMantissa_eq_zeros_iff] at hzero
    simp only [signBit, leadingBit, fractionBits, infinityBits, Nat.pow_eq] at *
    change b.toNat % 2 ^ 63 ≤ _ at h
    omega
  exact congrArg UInt64.ofBitVec ((pack_unpack b).trans (if_neg hnumber))

theorem magnitude_ofBits {bits : UInt64} (h : bits.toNat % signBit ≤ infinityBits) :
    magnitude (.ofBits bits) = .ofBits (bits.toNat % signBit) := by
  rw [magnitude, toBits_ofBits h]

theorem isNegative_ofBits {bits : UInt64} (h : bits.toNat % signBit ≤ infinityBits) :
    isNegative (.ofBits bits) = decide (signBit ≤ bits.toNat) := by
  rw [isNegative, toBits_ofBits h]

/-! ## Integers of 64 bits -/

theorem mantissa_shiftRight (m : ExtendedMantissa) (k : Nat) :
    (m >>> k).mantissa = m.mantissa / 2 ^ k := by
  induction k with
  | zero => exact (Nat.div_one _).symm
  | succ k ih =>
    show (m >>> k).shiftRightOne.mantissa = _
    rw [ExtendedMantissa.shiftRightOne, ih, Nat.div_div_eq_div_mul, Nat.pow_succ]

/-- A dyadic rational that is a natural number is not cut down. -/
theorem toInt_unpacked {x : Dyadic} {k : Nat} (hk : x.natural? = some k) (sign : BitVec 1)
    (least most : Int) :
    (x.unpacked sign).toInt least most = (Sign.ofBitVec sign).apply k := by
  unfold Dyadic.unpacked
  split
  next hzero =>
    have hzero : k = 0 := by
      simp only [Dyadic.natural?, hzero] at hk
      split at hk <;> simp at hk <;> omega
    subst hzero
    cases Sign.ofBitVec sign <;> rfl
  next =>
    rw [UnpackedFloat.toInt, roundToInt]
    simp only [decreaseExponent, shiftToExponent, mantissa_shiftRight, Int.sub_zero,
      ExtendedMantissa.ofMantissaAndAccuracy, Nat.shiftLeft_eq]
    unfold Dyadic.natural? at hk
    split at hk
    next hexponent =>
      obtain ⟨e, he⟩ := Int.eq_ofNat_of_zero_le hexponent
      cases hk
      simp [he]
    next hexponent =>
      split at hk
      · cases hk
        have hpos : x.exponent.toNat = 0 := by omega
        simp [hpos]
      · cases hk

/-- A double that is an integer becomes this integer of 64 bits if that is small enough. -/
theorem toInt_toInt64 {n : Float} {x : Dyadic} (hn : magnitude n = .finite x) {k : Nat}
    (hk : x.natural? = some k) (hlt : k < 2 ^ 63) :
    n.toModel.toInt64.toInt = if isNegative n then -(k : Int) else k := by
  let b : BitVec Format.binary64.numBits := n.toBits.toBitVec
  obtain ⟨hbits, hx⟩ := magnitude_eq_finite hn
  have hunpack : n.toModel.unpack = x.unpacked (unpackSign b) := by
    rw [hx]
    exact unpack_eq hbits
  have hsign : (Sign.ofBitVec (unpackSign b)).apply k = if isNegative n then -(k : Int) else k := by
    have hzero : unpackSign b = 0#1 ↔ ¬ signBit ≤ n.toBits.toNat := by
      have hlt : n.toBits.toNat < 2 ^ 64 := n.toBits.toBitVec.isLt
      rw [← BitVec.toNat_inj, toNat_unpackSign]
      show n.toBits.toNat / signBit = 0 ↔ _
      simp only [signBit, Nat.pow_eq]
      omega
    rw [Sign.ofBitVec, isNegative]
    by_cases h : signBit ≤ n.toBits.toNat
    · rw [if_neg (fun h' => hzero.1 h' h)]
      simp [h, Sign.apply]
    · rw [if_pos (hzero.2 h)]
      simp [h, Sign.apply]
  rw [Float.Model.toInt64, hunpack, UnpackedFloat.toInt64, toInt_unpacked hk, hsign,
    Int64.toInt_ofIntClamp]
  · rw [Int64.toInt_minValue]
    split <;> omega
  · rw [Int64.toInt_maxValue]
    split <;> omega

end LoxLang.Binary64
