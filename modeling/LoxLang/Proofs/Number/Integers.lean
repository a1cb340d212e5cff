import LoxLang.Proofs.Number.Shortest

/-!
# Integers among the doubles

No other integer rounds to an integer below `10 ^ 15`, as the doubles are no further apart than one
there (`Rounds.eq_of_natural`). And the shortest decimal of an integer is an integer
(`exponent_shortest_nonneg`). So it is this integer with the zeros at its end taken off
(`positional_shortest`), and to write the integer is to write its shortest decimal
(`print_eq_positional`).
-/

namespace LoxLang.Binary64

/-! ## Dyadic rationals that are natural numbers -/

theorem Dyadic.natural?_eq_some_iff {x : Dyadic} {k : Nat} :
    x.natural? = some k ↔ x.value = k := by
  unfold Dyadic.natural? Dyadic.value
  split
  next hexponent =>
    obtain ⟨n, hn⟩ := Int.eq_ofNat_of_zero_le hexponent
    rw [hn, Int.toNat_natCast, zpow_natCast, Option.some_inj]
    exact_mod_cast Iff.rfl
  next hexponent =>
    obtain ⟨n, hn⟩ := Int.exists_eq_neg_ofNat (Int.le_of_not_le hexponent)
    have hpos : 0 < Nat.pow 2 n := Nat.pow_pos two_pos
    have hvalue : (x.mantissa : ℚ) * 2 ^ x.exponent = k ↔ x.mantissa = k * Nat.pow 2 n := by
      rw [hn, zpow_neg, zpow_natCast, ← div_eq_mul_inv, div_eq_iff (by positivity), Nat.pow_eq]
      exact_mod_cast Iff.rfl
    rw [hvalue, hn, Int.neg_neg, Int.toNat_natCast]
    split
    next hdvd =>
      rw [Option.some_inj, Nat.div_eq_iff_eq_mul_left hpos (Nat.dvd_of_mod_eq_zero hdvd)]
    next hdvd =>
      refine ⟨(nomatch ·), fun h => absurd ?_ hdvd⟩
      rw [h, Nat.mul_mod_left]

/-! ## Small integers -/

/-- Zeros at the end of a number stand at the end of its digits. -/
theorem digitText_mul_pow {n : Nat} (hn : 0 < n) (k : Nat) :
    digitText (n * 10 ^ k) = digitText n ++ zeros k := by
  induction k with
  | zero => simp [zeros]
  | succ k ih =>
    have hpos : 0 < n * 10 ^ k := Nat.mul_pos hn (Nat.pow_pos (by decide))
    have hdigits : n * 10 ^ (k + 1) = 10 * (n * 10 ^ k) + 0 := by
      rw [Nat.pow_succ]
      ring
    rw [hdigits, digitText, ← Nat.toDigits_append_toDigits (by decide) hpos (by decide),
      String.ofList_append, ← digitText, ih, zeros, zeros, List.replicate_succ',
      String.ofList_append, String.append_assoc]
    rfl

section
variable {bits k : Nat} (hk : number bits = k)
include hk

/-- The shortest decimal of an integer is an integer. -/
theorem exponent_shortest_nonneg (hbits : 0 < bits) (tie : Tie) :
    0 ≤ (shortest tie (.ofPattern bits)).exponent := by
  obtain ⟨i, n, -, hnone, heq⟩ := exists_found hbits tie
  have hself : Rounds (Decimal.value ⟨k, 0⟩) bits := by
    rw [Decimal.value, zpow_zero, mul_one, ← hk]
    exact rounds_number bits
  have hcount : i + 1 ≤ digitCount k := le_digitCount_of_none hbits hnone hself
  obtain ⟨-, hpoint⟩ := point_bounds hbits
  rw [heq]
  refine le_trans ?_ (Decimal.exponent_le_trim _)
  rw [gridDecimal]
  generalize (Bracket.ofDyadic (.ofPattern bits)).point = p at hpoint
  rw [hk] at hpoint
  have hpos : 0 < p := by
    by_contra! hle
    have hone : (1 : ℚ) ≤ k := by exact_mod_cast hk ▸ number_pos hbits
    have hpower : (10 : ℚ) ^ p ≤ 10 ^ (0 : Int) := zpow_le_zpow_right₀ (by norm_num) hle
    rw [zpow_zero] at hpower
    linarith
  obtain ⟨places, rfl⟩ := Int.eq_ofNat_of_zero_le hpos.le
  have hplaces : digitCount k ≤ places := by
    rw [digitCount_le_iff (by exact_mod_cast hpos)]
    exact_mod_cast hpoint
  dsimp only
  omega

/-- A small integer has a unit in the last place of at most one. -/
theorem zpow_exponent_le_one (hlt : k < integerLimit) :
    (2 : ℚ) ^ (Dyadic.ofPattern bits).exponent ≤ 1 := by
  refine zpow_le_one_of_nonpos₀ one_le_two ?_
  obtain ⟨j, m, -, -, hm, hpattern⟩ := exists_ofPattern_eq bits
  rw [number, Dyadic.value, hpattern] at hk
  rw [hpattern]
  by_contra! hpos
  have hlarge : (leadingBit : ℚ) * 1 ≤ m * 2 ^ (leastExponent + j : Int) := by
    have hleading : leadingBit ≤ m := hm.resolve_right fun hzero => by
      subst hzero
      simp [leastExponent] at hpos
    refine mul_le_mul (by exact_mod_cast hleading) (one_le_zpow₀ one_le_two hpos.le) zero_le_one
      (Nat.cast_nonneg m)
  rw [hk, mul_one, Nat.cast_le] at hlarge
  exact absurd (hlarge.trans_lt hlt) (by decide)

/-- No other integer rounds to a small integer. -/
theorem Rounds.eq_of_natural (hlt : k < integerLimit) {n : Nat} (h : Rounds n bits) : n = k := by
  have hunit := zpow_exponent_le_one hk hlt
  have hle : (n : ℚ) ≤ k + 1 / 2 := by
    have hbelow : (n : ℚ) ≤ midpoint bits := h.below.elim le_of_lt fun h => h.1.le
    rw [midpoint_eq_add, hk] at hbelow
    linarith
  have hge : (k : ℚ) - 1 / 2 ≤ n := by
    obtain _ | lower := bits
    · rw [number_zero] at hk
      have : (0 : ℚ) ≤ n := Nat.cast_nonneg n
      linarith
    · have habove : midpoint lower ≤ n := (h.above lower rfl).elim le_of_lt fun h => h.1.le
      have hhalf : (2 : ℚ) ^ (Dyadic.ofPattern lower).exponent ≤
          2 ^ (Dyadic.ofPattern (lower + 1)).exponent := by
        refine zpow_le_zpow_right₀ one_le_two ?_
        rw [exponent_ofPattern]
        split <;> omega
      rw [midpoint_eq_sub, hk] at habove
      linarith
  refine Nat.le_antisymm ?_ ?_
  · by_contra! hlt
    have : (k + 1 : ℚ) ≤ n := by exact_mod_cast hlt
    linarith
  · by_contra! hlt
    have : (n + 1 : ℚ) ≤ k := by exact_mod_cast hlt
    linarith

/-- **The digits of a small integer are those of its shortest decimal**, with zeros up to the units
place. -/
theorem positional_shortest (hbits : 0 < bits) (hlt : k < integerLimit) (tie : Tie) :
    (shortest tie (.ofPattern bits)).positional = digitText k := by
  have hexponent := exponent_shortest_nonneg hk hbits tie
  have hrounds := rounds_shortest hbits tie
  have hpos : 0 < k := by exact_mod_cast hk ▸ number_pos hbits
  generalize shortest tie (.ofPattern bits) = d at *
  obtain ⟨digits, exponent⟩ := d
  obtain ⟨e, rfl⟩ := Int.eq_ofNat_of_zero_le hexponent
  have hvalue : Decimal.value ⟨digits, e⟩ = (digits * 10 ^ e : Nat) := by
    rw [Decimal.value, zpow_natCast]
    push_cast
    rfl
  rw [hvalue] at hrounds
  have heq := hrounds.eq_of_natural hk hlt
  have hdigits : 0 < digits := Nat.pos_of_ne_zero fun hzero => by
    rw [hzero, Nat.zero_mul] at heq
    exact hpos.ne heq
  rw [Decimal.positional, if_pos hexponent, ← heq, digitText_mul_pow hdigits]
  rfl

end

/-- Small integers are written as by their shortest decimals. -/
theorem print_eq_positional (n : Float) : print n = positional n := by
  unfold print
  split
  next k hsmall =>
    unfold smallInteger? at hsmall
    unfold positional
    split at hsmall
    next x hx =>
      obtain ⟨-, rfl⟩ := magnitude_eq_finite hx
      obtain ⟨hk, hlt⟩ := Option.filter_eq_some_iff.1 hsmall
      rw [Dyadic.natural?_eq_some_iff] at hk
      simp only [hx]
      generalize n.toBits.toNat % signBit = bits at *
      split
      next hzero =>
        rw [Dyadic.value, hzero, Nat.cast_zero, zero_mul] at hk
        obtain rfl : k = 0 := Nat.cast_eq_zero.1 hk.symm
        rfl
      next hmantissa =>
        have hbits : 0 < bits := Nat.pos_of_ne_zero fun hzero => by
          subst hzero
          exact hmantissa (Nat.zero_sub _)
        rw [positional_shortest hk hbits (of_decide_eq_true hlt)]
    next => cases hsmall
  next => rfl

/-- Zero is its own shortest decimal. -/
theorem isShortest_zero : Decimal.IsShortest ⟨0, 0⟩ 0 := by
  have hvalue : Decimal.value ⟨0, 0⟩ = number 0 := by
    rw [number_zero, Decimal.value, Nat.cast_zero, zero_mul]
  refine ⟨?_, fun _ => digitCount_pos _, fun _ _ => ?_⟩
  · rw [Decimal.toBits_read_eq_iff _ (by decide), hvalue]
    exact rounds_number 0
  · rw [hvalue, sub_self, abs_zero]
    exact abs_nonneg _

/-- The decimal by which a finite double is written. -/
theorem exists_positional_eq {bits : UInt64} (h : bits.toNat % signBit < infinityBits) :
    ∃ d : Decimal, d.IsShortest (bits.toNat % signBit) ∧
      positional (.ofBits bits) = signText (signBit ≤ bits.toNat) ++ d.positional ∧
      ∀ k : Nat, number (bits.toNat % signBit) = k → k < integerLimit →
        0 ≤ d.exponent ∧ digitText k = d.positional := by
  unfold positional
  rw [magnitude_ofBits h.le, Magnitude.ofBits_of_lt h, isNegative_ofBits h.le]
  generalize bits.toNat % signBit = pattern at *
  rcases Nat.eq_zero_or_pos pattern with rfl | hpos
  · refine ⟨⟨0, 0⟩, isShortest_zero, rfl, fun k hk _ => ⟨Int.le_refl 0, ?_⟩⟩
    rw [number_zero] at hk
    obtain rfl : k = 0 := Nat.cast_eq_zero.1 hk.symm
    rfl
  · refine ⟨shortest .up (.ofPattern pattern), isShortest_shortest hpos h .up, ?_,
      fun k hk hlt => ?_⟩
    · simp only
      rw [if_neg (mantissa_ofPattern_pos hpos).ne']
    · exact ⟨exponent_shortest_nonneg hk hpos .up, (positional_shortest hk hpos hlt .up).symm⟩

/-- **Small integers are printed like all other numbers.** The text of a finite double is its sign
and, in positional notation, the closest decimal of fewest digits that is read as its absolute
value. Where the double is an integer below the limit, conversion to 64 bits gives exactly this
integer, and its digits are those of the decimal with zeros up to the units place. -/
theorem print_by_shortest_decimal (bits : UInt64) :
    print (.ofBits bits) = positional (.ofBits bits) ∧
    (bits.toNat % signBit < infinityBits → ∃ d : Decimal, d.IsShortest (bits.toNat % signBit) ∧
      positional (.ofBits bits) = signText (signBit ≤ bits.toNat) ++ d.positional ∧
      ∀ k : Nat, (Dyadic.ofPattern (bits.toNat % signBit)).value = k → k < integerLimit →
        smallInteger? (.ofBits bits) = some k ∧
        (Float.ofBits bits).toModel.toInt64.toInt =
          (if signBit ≤ bits.toNat then -(k : Int) else k) ∧
        0 ≤ d.exponent ∧ digitText k = digitText d.digits ++ zeros d.exponent.toNat) := by
  refine ⟨print_eq_positional _, fun h => ?_⟩
  obtain ⟨d, hd, hpositional, hinteger⟩ := exists_positional_eq h
  refine ⟨d, hd, hpositional, fun k hk hlt => ?_⟩
  obtain ⟨hexponent, hdigits⟩ := hinteger k hk hlt
  have hmagnitude : magnitude (.ofBits bits) = .finite (.ofPattern (bits.toNat % signBit)) := by
    rw [magnitude_ofBits h.le, Magnitude.ofBits_of_lt h]
  have hnatural := Dyadic.natural?_eq_some_iff.2 hk
  refine ⟨?_, ?_, hexponent, ?_⟩
  · rw [smallInteger?, hmagnitude]
    exact Option.filter_eq_some_iff.2 ⟨hnatural, decide_eq_true hlt⟩
  · rw [toInt_toInt64 hmagnitude hnatural (hlt.trans (by decide)), isNegative_ofBits h.le]
    simp only [decide_eq_true_eq]
  · rw [hdigits, Decimal.positional, if_pos hexponent]

/-- The pattern of a negative integer with zeros at its end. -/
theorem negative_integer_printed :
    let bits : UInt64 := 0xC092C00000000000
    bits.toNat % signBit < infinityBits ∧
      (Dyadic.ofPattern (bits.toNat % signBit)).value = (1200 : Nat) ∧ 1200 < integerLimit ∧
      print (.ofBits bits) = "-1200" ∧ (Float.ofBits bits).toModel.toInt64.toInt = -1200 := by
  intro bits
  have hfinite : bits.toNat % signBit < infinityBits := by decide
  have hvalue : (Dyadic.ofPattern (bits.toNat % signBit)).value = (1200 : Nat) := by
    have hpattern : Dyadic.ofPattern (bits.toNat % signBit) = ⟨0x12C00000000000, -42⟩ := by decide
    rw [hpattern, Dyadic.value]
    norm_num
  have hlimit : 1200 < integerLimit := by decide
  obtain ⟨hprint, hshortest⟩ := print_by_shortest_decimal bits
  obtain ⟨d, -, hpositional, hinteger⟩ := hshortest hfinite
  obtain ⟨-, hconvert, hexponent, hdigits⟩ := hinteger 1200 hvalue hlimit
  refine ⟨hfinite, hvalue, hlimit, ?_, hconvert⟩
  rw [hprint, hpositional, Decimal.positional, if_pos hexponent, ← hdigits]
  decide

end LoxLang.Binary64
