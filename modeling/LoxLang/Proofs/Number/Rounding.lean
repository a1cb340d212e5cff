import LoxLang.Proofs.Number.Patterns

/-!
# Rounding to doubles

The patterns are numbered so that the numbers they stand for grow with them (`strictMono_midpoint`).
A ratio `Rounds` to the pattern whose number is closest, where of two equally close ones the even
pattern is taken: it lies between the midpoints to the neighbours. There is only one such pattern
(`Rounds.unique`), and `nearest` finds its double (`toBits_nearest_eq_iff`).
-/

namespace LoxLang.Binary64

/-- The number a dyadic rational is. -/
def Dyadic.value (x : Dyadic) : ℚ := x.mantissa * 2 ^ x.exponent

/-- The number of a pattern without a sign. -/
def number (bits : Nat) : ℚ := (Dyadic.ofPattern bits).value

/-- Half way between the numbers of a pattern and of the next. -/
def midpoint (bits : Nat) : ℚ := (number bits + number (bits + 1)) / 2

/-- `Rounds r bits`: of all patterns, this one stands for the number closest to `r`; of two equally
close ones it is the even one. -/
structure Rounds (r : ℚ) (bits : Nat) : Prop where
  below : r < midpoint bits ∨ r = midpoint bits ∧ Even bits
  above : ∀ lower, bits = lower + 1 → midpoint lower < r ∨ midpoint lower = r ∧ Even bits

/-! ## The numbers of the patterns -/

/-- The pattern of a mantissa on an exponent. The mantissa may have grown by rounding. -/
theorem number_mul_add {k m : Nat} (hm : m ≤ 2 * leadingBit) (hk : leadingBit ≤ m ∨ k = 0) :
    number (k * leadingBit + m) = m * 2 ^ (leastExponent + k) := by
  simp only [number, Dyadic.value, Dyadic.ofPattern]
  by_cases hcarry : m = 2 * leadingBit
  · subst hcarry
    have hdiv : (k * leadingBit + 2 * leadingBit) / leadingBit - 1 = k + 1 := by
      simp only [leadingBit, fractionBits, Nat.pow_eq]
      omega
    have hsub : k * leadingBit + 2 * leadingBit - (k + 1) * leadingBit = leadingBit := by
      rw [← Nat.add_mul, ← Nat.sub_mul, Nat.add_sub_add_left, Nat.one_mul]
    rw [hdiv, hsub, Nat.cast_add_one, ← add_assoc, zpow_add_one₀ two_ne_zero]
    push_cast
    ring
  · have hdiv : (k * leadingBit + m) / leadingBit - 1 = k := by
      simp only [leadingBit, fractionBits, Nat.pow_eq] at *
      omega
    rw [hdiv, Nat.add_sub_cancel_left]

/-- Every pattern is that of a mantissa on an exponent. -/
theorem exists_ofPattern_eq (bits : Nat) : ∃ k m, bits = k * leadingBit + m ∧ m < 2 * leadingBit ∧
    (leadingBit ≤ m ∨ k = 0) ∧ Dyadic.ofPattern bits = ⟨m, leastExponent + k⟩ := by
  refine ⟨bits / leadingBit - 1, bits - (bits / leadingBit - 1) * leadingBit, ?_, ?_, ?_, rfl⟩ <;>
    simp only [leadingBit, fractionBits, Nat.pow_eq] <;> omega

/-- A power of two has its lower neighbour half as far away as its upper one. -/
theorem exponent_ofPattern (lower : Nat) :
    (Dyadic.ofPattern lower).exponent =
      if (Dyadic.ofPattern (lower + 1)).mantissa = leadingBit ∧
        leastExponent < (Dyadic.ofPattern (lower + 1)).exponent
      then (Dyadic.ofPattern (lower + 1)).exponent - 1
      else (Dyadic.ofPattern (lower + 1)).exponent := by
  split <;> simp only [Dyadic.ofPattern, leadingBit, fractionBits, Nat.pow_eq] at * <;> omega

theorem mantissa_ofPattern_pos {bits : Nat} (h : 0 < bits) :
    0 < (Dyadic.ofPattern bits).mantissa := by
  simp only [Dyadic.ofPattern, leadingBit, fractionBits, Nat.pow_eq]
  omega

theorem number_pos {bits : Nat} (h : 0 < bits) : 0 < number bits :=
  mul_pos (by exact_mod_cast mantissa_ofPattern_pos h) (zpow_pos two_pos _)

theorem number_zero : number 0 = 0 := by simp [number, Dyadic.value, Dyadic.ofPattern]

/-- The next number is one unit of the last place away. -/
theorem number_succ (bits : Nat) :
    number (bits + 1) = number bits + 2 ^ (Dyadic.ofPattern bits).exponent := by
  obtain ⟨k, m, rfl, hm, hk, hpattern⟩ := exists_ofPattern_eq bits
  rw [Nat.add_assoc, number_mul_add hm (hk.imp_left Nat.le_succ_of_le), hpattern,
    number_mul_add hm.le hk]
  push_cast
  ring

/-- Half way from a mantissa to the next. -/
theorem midpoint_mul_add {k m : Nat} (hm : m < 2 * leadingBit) (hk : leadingBit ≤ m ∨ k = 0) :
    midpoint (k * leadingBit + m) = (m + 1 / 2) * 2 ^ (leastExponent + k) := by
  rw [midpoint, number_mul_add hm.le hk, Nat.add_assoc,
    number_mul_add hm (hk.imp_left Nat.le_succ_of_le)]
  push_cast
  ring

theorem midpoint_eq_add (bits : Nat) :
    midpoint bits = number bits + 2 ^ (Dyadic.ofPattern bits).exponent / 2 := by
  rw [midpoint, number_succ]
  ring

theorem midpoint_eq_sub (bits : Nat) :
    midpoint bits = number (bits + 1) - 2 ^ (Dyadic.ofPattern bits).exponent / 2 := by
  rw [midpoint, number_succ]
  ring

theorem number_lt_midpoint (bits : Nat) : number bits < midpoint bits := by
  rw [midpoint_eq_add]
  exact lt_add_of_pos_right _ (half_pos (zpow_pos two_pos _))

theorem midpoint_lt_number (bits : Nat) : midpoint bits < number (bits + 1) := by
  rw [midpoint_eq_sub]
  exact sub_lt_self _ (half_pos (zpow_pos two_pos _))

theorem strictMono_midpoint : StrictMono midpoint :=
  strictMono_nat_of_lt_succ fun bits =>
    (midpoint_lt_number bits).trans (number_lt_midpoint (bits + 1))

theorem rounds_number (bits : Nat) : Rounds (number bits) bits :=
  ⟨.inl (number_lt_midpoint bits), fun lower h => .inl (h ▸ midpoint_lt_number lower)⟩

/-- A ratio rounds to one pattern only. -/
theorem Rounds.not_lt {r : ℚ} {bits other : Nat} (h : Rounds r bits) (hother : Rounds r other) :
    ¬ bits < other := by
  intro hlt
  obtain ⟨lower, rfl⟩ := Nat.exists_eq_add_one_of_ne_zero (Nat.ne_zero_of_lt hlt)
  have hle : midpoint bits ≤ midpoint lower := strictMono_midpoint.monotone (Nat.le_of_lt_succ hlt)
  rcases h.below with hbelow | ⟨hbelow, heven⟩ <;>
    rcases hother.above lower rfl with habove | ⟨habove, hodd⟩
  · linarith
  · linarith
  · linarith
  · -- `r` is the midpoint of two neighbours, and only one of these is even
    have heq : bits = lower := strictMono_midpoint.injective (by linarith)
    subst heq
    exact Nat.not_even_iff_odd.2 (Even.add_one heven) hodd

theorem Rounds.unique {r : ℚ} {bits other : Nat} (h : Rounds r bits) (hother : Rounds r other) :
    bits = other :=
  Nat.le_antisymm (Nat.le_of_not_lt (hother.not_lt h)) (Nat.le_of_not_lt (h.not_lt hother))

/-! ## Rounding a ratio -/

section
variable {num den : Nat}

/-- A ratio divided by a power of the base. -/
theorem cast_scaleDown (num den base : Nat) (k : Int) :
    ((scaleDown num den base k).1 : ℚ) / (scaleDown num den base k).2 =
      num / den / (base : ℚ) ^ k := by
  unfold scaleDown
  split
  next hk =>
    obtain ⟨n, rfl⟩ := Int.eq_ofNat_of_zero_le hk
    simp [div_div]
  next hk =>
    obtain ⟨n, rfl⟩ := Int.exists_eq_neg_ofNat (Int.le_of_not_le hk)
    simp [div_mul_eq_mul_div]

theorem scaleDown_snd_pos (num : Nat) (hden : 0 < den) {base : Nat} (hbase : 0 < base) (k : Int) :
    0 < (scaleDown num den base k).2 := by
  unfold scaleDown
  split
  · exact Nat.mul_pos hden (Nat.pow_pos hbase)
  · exact hden

theorem snd_le_fst_scaleDown (num : Nat) (hden : 0 < den) {base : Nat} (hbase : 0 < base)
    (k : Int) :
    (scaleDown num den base k).2 ≤ (scaleDown num den base k).1 ↔
      (base : ℚ) ^ k ≤ num / den := by
  have hpos : (0 : ℚ) < (scaleDown num den base k).2 := by
    exact_mod_cast scaleDown_snd_pos num hden hbase k
  rw [← one_le_div₀ (zpow_pos (by exact_mod_cast hbase) k), ← cast_scaleDown, one_le_div₀ hpos,
    Nat.cast_le]

/-- The powers that two numbers lie between bound their ratio. -/
theorem zpow_lt_div {base a b : Nat} (hbase : 0 < base) (hnum : base ^ a ≤ num)
    (hnum' : num < base ^ (a + 1)) (hden : base ^ b ≤ den) (hden' : den < base ^ (b + 1)) :
    (base : ℚ) ^ ((a : Int) - b - 1) < num / den ∧
      (num / den : ℚ) < (base : ℚ) ^ ((a : Int) - b + 1) := by
  have hpos : (0 : ℚ) < base := by exact_mod_cast hbase
  have hnumpos : (0 : ℚ) < num := by exact_mod_cast (Nat.pow_pos hbase).trans_le hnum
  have hdenpos : (0 : ℚ) < den := by exact_mod_cast (Nat.pow_pos hbase).trans_le hden
  constructor
  · calc (base : ℚ) ^ ((a : Int) - b - 1) = (base : ℚ) ^ a / (base : ℚ) ^ (b + 1) := by
          rw [sub_sub, zpow_sub₀ hpos.ne']
          exact_mod_cast rfl
      _ < num / den :=
          div_lt_div₀' (by exact_mod_cast hnum) (by exact_mod_cast hden') hnumpos hdenpos
  · calc (num / den : ℚ) < (base : ℚ) ^ (a + 1) / (base : ℚ) ^ b :=
          div_lt_div₀ (by exact_mod_cast hnum') (by exact_mod_cast hden) (by positivity)
            (by positivity)
      _ = (base : ℚ) ^ ((a : Int) - b + 1) := by
          rw [sub_add_eq_add_sub, zpow_sub₀ hpos.ne']
          exact_mod_cast rfl

/-- The binary logarithm of a ratio, rounded down. -/
theorem floorLog2_spec (hnum : 0 < num) (hden : 0 < den) :
    (2 : ℚ) ^ floorLog2 num den ≤ num / den ∧ (num / den : ℚ) < 2 ^ (floorLog2 num den + 1) := by
  obtain ⟨habove, hbelow⟩ := zpow_lt_div two_pos (Nat.log2_self_le hnum.ne') Nat.lt_log2_self
    (Nat.log2_self_le hden.ne') Nat.lt_log2_self
  have hcompare := snd_le_fst_scaleDown num hden two_pos ((num.log2 : Int) - den.log2)
  simp only [floorLog2]
  split
  next h => exact ⟨hcompare.1 h, hbelow⟩
  next h => exact ⟨habove.le, by rw [Int.sub_add_cancel]; exact not_le.1 (mt hcompare.2 h)⟩

/-- A ratio lies between the natural number below it and the next. -/
theorem natCast_div_bounds (num : Nat) (hden : 0 < den) :
    ((num / den : Nat) : ℚ) ≤ num / den ∧ (num / den : ℚ) < (num / den : Nat) + 1 := by
  have hpos : (0 : ℚ) < den := by exact_mod_cast hden
  refine ⟨Nat.cast_div_le, ?_⟩
  rw [div_lt_iff₀ hpos, mul_comm]
  exact_mod_cast Nat.lt_mul_div_succ num hden

/-- Twice the remainder tells on which side of the middle the ratio lies. -/
theorem twice_mod_compare (num : Nat) (hden : 0 < den) :
    (2 * (num % den) < den ↔ (num / den : ℚ) < (num / den : Nat) + 1 / 2) ∧
      (den < 2 * (num % den) ↔ ((num / den : Nat) : ℚ) + 1 / 2 < num / den) := by
  have hpos : (0 : ℚ) < den := by exact_mod_cast hden
  have hratio : (num / den : ℚ) = (num / den : Nat) + (num % den : Nat) / den := by
    field_simp
    exact_mod_cast (Nat.div_add_mod num den).symm
  rw [hratio, add_lt_add_iff_left, add_lt_add_iff_left, div_lt_div_iff₀ hpos two_pos,
    div_lt_div_iff₀ two_pos hpos, one_mul, mul_comm 2]
  constructor <;> exact_mod_cast Iff.rfl

/-- Rounding to an integer takes the closest one, and the even one of two equally close ones. -/
theorem roundHalfEven_spec (num : Nat) (hden : 0 < den) :
    ((num / den : ℚ) < roundHalfEven num den + 1 / 2 ∨
      (num / den : ℚ) = roundHalfEven num den + 1 / 2 ∧ Even (roundHalfEven num den)) ∧
    ((roundHalfEven num den : ℚ) - 1 / 2 < num / den ∨
      (roundHalfEven num den : ℚ) - 1 / 2 = num / den ∧ Even (roundHalfEven num den)) := by
  obtain ⟨hbelow, habove⟩ := natCast_div_bounds num hden
  obtain ⟨hless, hmore⟩ := twice_mod_compare num hden
  simp only [roundHalfEven, hless, hmore]
  split
  next h => exact ⟨.inl (by linarith), .inl (by linarith)⟩
  next h =>
    split
    next h' => exact ⟨.inl (by push_cast; linarith), .inl (by push_cast; linarith)⟩
    next h' =>
      have htie : (num / den : ℚ) = (num / den : Nat) + 1 / 2 := by linarith
      split
      next heven => exact ⟨.inr ⟨by linarith, Nat.even_iff.2 heven⟩, .inl (by linarith)⟩
      next hodd =>
        have heven : Even (num / den + 1) := Odd.add_one (Nat.odd_iff.2 (by omega))
        exact ⟨.inl (by push_cast; linarith), .inr ⟨by push_cast; linarith, heven⟩⟩

/-- A mantissa that is rounded to an integer gives the pattern that the number rounds to. -/
theorem rounds_of_mantissa {t : ℚ} {k m : Nat} (hless : t < 2 * leadingBit)
    (hmore : leadingBit ≤ t ∨ k = 0) (hbelow : t < m + 1 / 2 ∨ t = m + 1 / 2 ∧ Even m)
    (habove : (m : ℚ) - 1 / 2 < t ∨ (m : ℚ) - 1 / 2 = t ∧ Even m) :
    Rounds (t * 2 ^ (leastExponent + k)) (k * leadingBit + m) := by
  have hunit : (0 : ℚ) < 2 ^ (leastExponent + k : Int) := zpow_pos two_pos _
  have hle : t ≤ m + 1 / 2 := hbelow.elim le_of_lt fun h => h.1.le
  have hge : (m : ℚ) - 1 / 2 ≤ t := habove.elim le_of_lt fun h => h.1.le
  have heven : Even m → Even (k * leadingBit + m) := (Even.mul_left ⟨2 ^ 51, rfl⟩ k).add
  have hm : m ≤ 2 * leadingBit := by
    by_contra! hlt
    have : (2 * leadingBit + 1 : ℚ) ≤ m := by exact_mod_cast hlt
    linarith
  have hk : leadingBit ≤ m ∨ k = 0 := by
    refine hmore.imp_left fun hmore => ?_
    by_contra! hlt
    have : (m + 1 : ℚ) ≤ leadingBit := by exact_mod_cast hlt
    linarith
  have hnumber := number_mul_add hm hk
  refine ⟨?_, fun lower hlower => ?_⟩
  · rcases hm.lt_or_eq with hlt | rfl
    · rw [midpoint_mul_add hlt hk, mul_lt_mul_iff_left₀ hunit, mul_left_inj' hunit.ne']
      exact hbelow.imp_right (And.imp_right heven)
    · left
      refine lt_trans ?_ (number_lt_midpoint _)
      rw [hnumber, mul_lt_mul_iff_left₀ hunit]
      exact_mod_cast hless
  · obtain _ | m := m
    · rcases hk with hk | rfl
      · exact absurd hk (by decide)
      · simp at hlower
    · obtain rfl : k * leadingBit + m = lower := Nat.succ.inj hlower
      by_cases hk' : leadingBit ≤ m ∨ k = 0
      · have hhalf : ((m + 1 : Nat) : ℚ) - 1 / 2 = m + 1 / 2 := by
          push_cast
          ring
        rw [midpoint_mul_add hm hk', ← hhalf, mul_lt_mul_iff_left₀ hunit, mul_left_inj' hunit.ne']
        exact habove.imp_right (And.imp_right heven)
      · -- the first mantissa of its exponent: the neighbour below is closer
        left
        refine (midpoint_lt_number _).trans_le ?_
        rw [Nat.add_assoc, hnumber, mul_le_mul_iff_left₀ hunit]
        have hfirst : m + 1 = leadingBit := by omega
        rw [hfirst]
        exact hmore.resolve_right (by tauto)

/-- The pattern a ratio rounds to. -/
theorem exists_rounds (hnum : 0 < num) (hden : 0 < den) :
    ∃ bits, Rounds (num / den) bits ∧ nearestBits num den = min bits infinityBits := by
  obtain ⟨hfloor, hfloor'⟩ := floorLog2_spec hnum hden
  simp only [nearestBits]
  generalize he : max (floorLog2 num den - fractionBits) leastExponent = e
  obtain ⟨k, rfl⟩ : ∃ k : Nat, e = leastExponent + k := by
    refine ⟨(e - leastExponent).toNat, ?_⟩
    omega
  have hround := roundHalfEven_spec (scaleDown num den 2 (leastExponent + k)).1
    (scaleDown_snd_pos num hden two_pos (leastExponent + k))
  rw [cast_scaleDown, Nat.cast_two] at hround
  have hpos : (0 : ℚ) < 2 ^ (leastExponent + k : Int) := zpow_pos two_pos _
  have hless : num / den / 2 ^ (leastExponent + k : Int) < (2 * leadingBit : ℚ) := by
    rw [div_lt_iff₀ hpos]
    calc (num / den : ℚ) < 2 ^ (floorLog2 num den + 1) := hfloor'
      _ ≤ 2 ^ (53 + (leastExponent + k) : Int) :=
          zpow_le_zpow_right₀ one_le_two (by simp only [fractionBits] at he; omega)
      _ = 2 * leadingBit * 2 ^ (leastExponent + k : Int) := by
          rw [zpow_add₀ two_ne_zero 53]
          norm_num [leadingBit, fractionBits]
  have hmore : (leadingBit : ℚ) ≤ num / den / 2 ^ (leastExponent + k : Int) ∨ k = 0 := by
    refine or_iff_not_imp_right.2 fun hk => ?_
    rw [le_div_iff₀ hpos]
    calc (leadingBit : ℚ) * 2 ^ (leastExponent + k : Int)
        = 2 ^ (52 + (leastExponent + k) : Int) := by
          rw [zpow_add₀ two_ne_zero 52]
          norm_num [leadingBit, fractionBits]
      _ = 2 ^ floorLog2 num den := by
          congr 1
          simp only [fractionBits] at he
          omega
      _ ≤ num / den := hfloor
  have hrounds := rounds_of_mantissa hless hmore hround.1 hround.2
  rw [div_mul_cancel₀ _ hpos.ne'] at hrounds
  refine ⟨_, hrounds, ?_⟩
  simp

theorem nearestBits_eq_iff (hnum : 0 < num) (hden : 0 < den) {bits : Nat}
    (h : bits < infinityBits) : nearestBits num den = bits ↔ Rounds (num / den) bits := by
  obtain ⟨found, hfound, heq⟩ := exists_rounds hnum hden
  rw [heq]
  refine ⟨fun hmin => ?_, fun hrounds => ?_⟩
  · obtain rfl : found = bits := by omega
    exact hfound
  · rw [hfound.unique hrounds]
    exact Nat.min_eq_left h.le

theorem nearestBits_le : nearestBits num den ≤ infinityBits := Nat.min_le_right _ _

/-- **The double that is found for a ratio is the one it rounds to.** -/
theorem toBits_nearest_eq_iff (num : Nat) (hden : 0 < den) {bits : Nat} (h : bits < infinityBits) :
    (nearest num den).toBits.toNat = bits ↔ Rounds (num / den) bits := by
  have hrounds : Rounds 0 0 := number_zero ▸ rounds_number 0
  have hself {found : Nat} (hfound : found ≤ infinityBits) :
      (Float.ofBits (.ofNat found)).toBits.toNat = found := by
    have hsize : infinityBits < signBit := by decide
    have hlt : found < UInt64.size := by
      have : signBit < UInt64.size := by decide
      omega
    rw [toBits_ofBits] <;> rw [UInt64.toNat_ofNat_of_lt' hlt]
    rwa [Nat.mod_eq_of_lt (hfound.trans_lt hsize)]
  unfold nearest
  split
  next hzero =>
    rw [hself (Nat.zero_le _), hzero, Nat.cast_zero, zero_div]
    exact ⟨fun hbits => hbits ▸ hrounds, hrounds.unique⟩
  next hnum =>
    rw [hself nearestBits_le]
    exact nearestBits_eq_iff (Nat.pos_of_ne_zero hnum) hden h

end

end LoxLang.Binary64
