import LoxLang.Proofs.Number.Rounding

/-!
# Brackets

The bracket of a double holds exactly the numbers that round to it (`Bracket.holds_ofPattern`), also
when both are divided by a power of ten (`Bracket.holds_scaleDown`). If a bracket holds a natural
number, it holds one next to its center, so `Bracket.integer?` finds one
(`Bracket.Proper.isSome_integer?`); and it does hold one if it is longer than one
(`Bracket.Proper.exists_holds`).
-/

namespace LoxLang.Binary64

namespace Bracket

/-- The lower end. -/
def low (b : Bracket) : ℚ := b.lower / b.den

/-- The number a bracket lies around. -/
def center (b : Bracket) : ℚ := b.value / b.den

/-- The upper end. -/
def high (b : Bracket) : ℚ := b.upper / b.den

/-- `b.Holds r`: the number lies in the bracket. -/
def Holds (b : Bracket) (r : ℚ) : Prop :=
  if b.closed then b.low ≤ r ∧ r ≤ b.high else b.low < r ∧ r < b.high

/-- The center of a bracket lies inside. -/
structure Proper (b : Bracket) : Prop where
  den_pos : 0 < b.den
  low_lt : b.low < b.center
  lt_high : b.center < b.high

variable {b : Bracket}

theorem holds_of_lt {r : ℚ} (hlow : b.low < r) (hhigh : r < b.high) : b.Holds r := by
  unfold Holds
  split
  · exact ⟨hlow.le, hhigh.le⟩
  · exact ⟨hlow, hhigh⟩

theorem Proper.holds_center (h : b.Proper) : b.Holds b.center := holds_of_lt h.low_lt h.lt_high

/-- What lies between two numbers of a bracket lies in the bracket. -/
theorem Holds.between {r s t : ℚ} (hr : b.Holds r) (ht : b.Holds t) (hrs : r ≤ s) (hst : s ≤ t) :
    b.Holds s := by
  unfold Holds at *
  split at hr
  next h =>
    rw [if_pos h] at ht ⊢
    exact ⟨hr.1.trans hrs, hst.trans ht.2⟩
  next h =>
    rw [if_neg h] at ht ⊢
    exact ⟨hr.1.trans_le hrs, hst.trans_lt ht.2⟩

/-! ## Division by a power of ten -/

theorem div_scaleDown (n : Nat) (k : Int) :
    ((n * if 0 ≤ k then 1 else Nat.pow 10 (-k).toNat : Nat) : ℚ) / (b.scaleDown k).den =
      n / b.den / 10 ^ k := by
  unfold scaleDown
  by_cases hk : 0 ≤ k
  · obtain ⟨n, rfl⟩ := Int.eq_ofNat_of_zero_le hk
    simp [div_div]
  · have hneg : -k = (-k).toNat := (Int.toNat_of_nonneg (by omega)).symm
    rw [if_neg hk, if_neg hk, div_eq_mul_inv _ ((10 : ℚ) ^ k), ← zpow_neg, hneg, zpow_natCast,
      Int.toNat_natCast, Nat.pow_eq]
    push_cast
    ring

theorem low_scaleDown (k : Int) : (b.scaleDown k).low = b.low / 10 ^ k := div_scaleDown b.lower k

theorem center_scaleDown (k : Int) : (b.scaleDown k).center = b.center / 10 ^ k :=
  div_scaleDown b.value k

theorem high_scaleDown (k : Int) : (b.scaleDown k).high = b.high / 10 ^ k :=
  div_scaleDown b.upper k

theorem holds_scaleDown (k : Int) (r : ℚ) : (b.scaleDown k).Holds r ↔ b.Holds (r * 10 ^ k) := by
  have hpos : (0 : ℚ) < 10 ^ k := zpow_pos (by norm_num) k
  unfold Holds
  rw [low_scaleDown, high_scaleDown, div_le_iff₀ hpos, le_div_iff₀ hpos, div_lt_iff₀ hpos,
    lt_div_iff₀ hpos]
  rfl

theorem Proper.scaleDown (h : b.Proper) (k : Int) : (b.scaleDown k).Proper := by
  have hpos : (0 : ℚ) < 10 ^ k := zpow_pos (by norm_num) k
  refine ⟨?_, ?_, ?_⟩
  · unfold Bracket.scaleDown
    dsimp only
    split
    · exact Nat.mul_pos h.den_pos (Nat.pow_pos (by decide))
    · exact h.den_pos
  · rw [low_scaleDown, center_scaleDown]
    exact div_lt_div_of_pos_right h.low_lt hpos
  · rw [high_scaleDown, center_scaleDown]
    exact div_lt_div_of_pos_right h.lt_high hpos

/-! ## Natural numbers in a bracket -/

theorem Proper.reachesLower_iff (h : b.Proper) (n : Nat) :
    b.reachesLower (n * b.den) ↔ if b.closed then b.low ≤ n else b.low < n := by
  have hden : (0 : ℚ) < b.den := by exact_mod_cast h.den_pos
  unfold reachesLower low
  rw [div_le_iff₀ hden, div_lt_iff₀ hden]
  split <;> rw [decide_eq_true_eq] <;> exact_mod_cast Iff.rfl

theorem Proper.reachesUpper_iff (h : b.Proper) (n : Nat) :
    b.reachesUpper (n * b.den) ↔ if b.closed then n ≤ b.high else n < b.high := by
  have hden : (0 : ℚ) < b.den := by exact_mod_cast h.den_pos
  unfold reachesUpper high
  rw [le_div_iff₀ hden, lt_div_iff₀ hden]
  split <;> rw [decide_eq_true_eq] <;> exact_mod_cast Iff.rfl

theorem Proper.holds_natCast_iff (h : b.Proper) (n : Nat) :
    b.Holds n ↔ b.reachesLower (n * b.den) ∧ b.reachesUpper (n * b.den) := by
  rw [h.reachesLower_iff, h.reachesUpper_iff, Holds]
  split <;> rfl

/-- The natural number below the center can only miss the lower end. -/
theorem Proper.holds_below_iff (h : b.Proper) :
    b.Holds (b.value / b.den : Nat) ↔ b.reachesLower (b.value / b.den * b.den) := by
  have hhigh : ((b.value / b.den : Nat) : ℚ) < b.high :=
    (natCast_div_bounds b.value h.den_pos).1.trans_lt h.lt_high
  rw [h.holds_natCast_iff, and_iff_left]
  rw [h.reachesUpper_iff]
  split
  · exact hhigh.le
  · exact hhigh

/-- The natural number above the center can only miss the upper end. -/
theorem Proper.holds_above_iff (h : b.Proper) :
    b.Holds (b.value / b.den + 1 : Nat) ↔ b.reachesUpper ((b.value / b.den + 1) * b.den) := by
  have hlow : b.low < (b.value / b.den + 1 : Nat) := by
    push_cast
    exact h.low_lt.trans (natCast_div_bounds b.value h.den_pos).2
  rw [h.holds_natCast_iff, and_iff_right]
  rw [h.reachesLower_iff]
  split
  · exact hlow.le
  · exact hlow

/-- What is found is one of the two natural numbers next to the center, and the closer one if both
lie in the bracket. -/
theorem Proper.integer?_cases (h : b.Proper) {tie : Tie} {n : Nat} (hn : b.integer? tie = some n) :
    b.Holds n ∧
      (n = b.value / b.den ∧
          (b.Holds (b.value / b.den + 1 : Nat) → b.center ≤ (b.value / b.den : Nat) + 1 / 2) ∨
        n = b.value / b.den + 1 ∧
          (b.Holds (b.value / b.den : Nat) → (b.value / b.den : Nat) + 1 / 2 ≤ b.center)) := by
  have hbelow := h.holds_below_iff
  have habove := h.holds_above_iff
  obtain ⟨hless, hmore⟩ := twice_mod_compare b.value h.den_pos
  simp only [integer?] at hn
  split at hn
  next => cases hn
  next hlower hupper =>
    cases hn
    exact ⟨hbelow.2 hlower, .inl ⟨rfl, fun hholds => absurd (habove.1 hholds) (by simp [hupper])⟩⟩
  next hlower hupper =>
    cases hn
    exact ⟨habove.2 hupper, .inr ⟨rfl, fun hholds => absurd (hbelow.1 hholds) (by simp [hlower])⟩⟩
  next hlower hupper =>
    split at hn
    next hlt =>
      cases hn
      exact ⟨hbelow.2 hlower, .inl ⟨rfl, fun _ => (hless.1 hlt).le⟩⟩
    next hge =>
      split at hn
      next hlt =>
        cases hn
        exact ⟨habove.2 hupper, .inr ⟨rfl, fun _ => (hmore.1 hlt).le⟩⟩
      next hle =>
        have hnext : n = b.value / b.den ∨ n = b.value / b.den + 1 := by grind
        rcases hnext with rfl | rfl
        · exact ⟨hbelow.2 hlower, .inl ⟨rfl, fun _ => not_lt.1 (mt hmore.2 hle)⟩⟩
        · exact ⟨habove.2 hupper, .inr ⟨rfl, fun _ => not_lt.1 (mt hless.2 hge)⟩⟩

/-- What is found is as close to the center as any natural number of the bracket. -/
theorem Proper.integer?_closest (h : b.Proper) {tie : Tie} {n : Nat}
    (hn : b.integer? tie = some n) {m : Nat} (hm : b.Holds m) :
    |(n : ℚ) - b.center| ≤ |(m : ℚ) - b.center| := by
  obtain ⟨hfloor, hfloor'⟩ : ((b.value / b.den : Nat) : ℚ) ≤ b.center ∧
      b.center < (b.value / b.den : Nat) + 1 := natCast_div_bounds b.value h.den_pos
  obtain ⟨-, hcases⟩ := h.integer?_cases hn
  rcases Nat.lt_or_ge (b.value / b.den) m with hlt | hle
  · have hmabove : ((b.value / b.den : Nat) : ℚ) + 1 ≤ m := by exact_mod_cast hlt
    have habove : b.Holds (b.value / b.den + 1 : Nat) :=
      h.holds_center.between hm (by push_cast; exact hfloor'.le) (by push_cast; exact hmabove)
    rw [abs_of_nonneg (by linarith : 0 ≤ (m : ℚ) - b.center)]
    rcases hcases with ⟨rfl, hcloser⟩ | ⟨rfl, -⟩
    · have := hcloser habove
      rw [abs_of_nonpos (by linarith)]
      linarith
    · push_cast
      rw [abs_of_nonneg (by linarith)]
      linarith
  · have hmbelow : (m : ℚ) ≤ (b.value / b.den : Nat) := by exact_mod_cast hle
    have hbelow : b.Holds (b.value / b.den : Nat) := hm.between h.holds_center hmbelow hfloor
    rw [abs_of_nonpos (by linarith : (m : ℚ) - b.center ≤ 0)]
    rcases hcases with ⟨rfl, -⟩ | ⟨rfl, hcloser⟩
    · rw [abs_of_nonpos (by linarith)]
      linarith
    · have := hcloser hbelow
      push_cast
      rw [abs_of_nonneg (by linarith)]
      linarith

/-- Something is found if the bracket holds a natural number. -/
theorem Proper.isSome_integer? (h : b.Proper) {n : Nat} (hn : b.Holds n) (tie : Tie) :
    (b.integer? tie).isSome := by
  have hcenter := h.holds_center
  obtain ⟨hfloor, hfloor'⟩ := natCast_div_bounds b.value h.den_pos
  unfold integer?
  rcases Nat.lt_or_ge (b.value / b.den) n with hlt | hle
  · have habove : b.Holds (b.value / b.den + 1 : Nat) := by
      refine hcenter.between hn ?_ (by exact_mod_cast hlt)
      push_cast
      exact hfloor'.le
    rw [h.holds_above_iff] at habove
    simp only [habove]
    split <;> grind
  · have hbelow : b.Holds (b.value / b.den : Nat) :=
      hn.between hcenter (by exact_mod_cast hle) hfloor
    rw [h.holds_below_iff] at hbelow
    simp only [hbelow]
    split <;> grind

/-- A bracket that is longer than one holds a natural number. -/
theorem Proper.exists_holds (h : b.Proper) (hlong : b.low + 1 < b.high) :
    ∃ n : Nat, b.Holds n := by
  obtain ⟨hbelow, habove⟩ := natCast_div_bounds b.lower h.den_pos
  refine ⟨b.lower / b.den + 1, holds_of_lt ?_ ?_⟩
  · exact_mod_cast habove
  · push_cast
    exact (add_le_add_left hbelow 1).trans_lt hlong

/-! ## The bracket of a pattern -/

/-- A number of quarters of the unit in the last place, over the denominator of the bracket. -/
theorem div_ofDyadic (x : Dyadic) (n : Nat) :
    ((n * if 0 ≤ x.exponent - 2 then Nat.pow 2 (x.exponent - 2).toNat else 1 : Nat) : ℚ) /
      (ofDyadic x).den = n * (2 ^ x.exponent / 4) := by
  have hquarter : (2 : ℚ) ^ x.exponent / 4 = 2 ^ (x.exponent - 2) := by
    rw [zpow_sub₀ two_ne_zero]
    norm_num
  rw [hquarter]
  unfold ofDyadic
  dsimp only
  by_cases hk : 0 ≤ x.exponent - 2
  · have hpos : x.exponent - 2 = (x.exponent - 2).toNat := (Int.toNat_of_nonneg hk).symm
    rw [if_pos hk, if_pos hk, hpos, zpow_natCast, Int.toNat_natCast, Nat.pow_eq]
    push_cast
    ring
  · have hneg : x.exponent - 2 = -((-(x.exponent - 2)).toNat : Int) := by omega
    rw [if_neg hk, if_neg hk, Nat.mul_one, Nat.pow_eq]
    generalize (-(x.exponent - 2)).toNat = j at hneg
    rw [hneg, zpow_neg, zpow_natCast]
    push_cast
    rfl

theorem center_ofDyadic (x : Dyadic) : (ofDyadic x).center = x.value := by
  refine (div_ofDyadic x (4 * x.mantissa)).trans ?_
  rw [Dyadic.value]
  push_cast
  ring

theorem high_ofPattern (bits : Nat) : (ofDyadic (.ofPattern bits)).high = midpoint bits := by
  refine (div_ofDyadic _ (4 * (Dyadic.ofPattern bits).mantissa + 2)).trans ?_
  rw [midpoint_eq_add, number, Dyadic.value]
  push_cast
  ring

theorem low_ofPattern (lower : Nat) :
    (ofDyadic (.ofPattern (lower + 1))).low = midpoint lower := by
  have hpos := mantissa_ofPattern_pos (Nat.succ_pos lower)
  rw [midpoint_eq_sub, exponent_ofPattern lower, number, Dyadic.value]
  generalize Dyadic.ofPattern (lower + 1) = x at hpos
  refine (div_ofDyadic x _).trans ?_
  split
  · rw [zpow_sub_one₀ two_ne_zero, Nat.cast_sub (by omega)]
    push_cast
    ring
  · rw [Nat.cast_sub (by omega)]
    push_cast
    ring

theorem closed_ofPattern (bits : Nat) : (ofDyadic (.ofPattern bits)).closed ↔ Even bits := by
  have hmantissa : (Dyadic.ofPattern bits).mantissa % 2 = bits % 2 := by
    simp only [Dyadic.ofPattern, leadingBit, fractionBits, Nat.pow_eq]
    omega
  show decide ((Dyadic.ofPattern bits).mantissa % 2 = 0) = true ↔ _
  rw [decide_eq_true_eq, hmantissa, Nat.even_iff]

/-- The bracket of a positive double is proper. -/
theorem proper_ofPattern {bits : Nat} (h : 0 < bits) : (ofDyadic (.ofPattern bits)).Proper := by
  obtain ⟨lower, rfl⟩ := Nat.exists_eq_add_one_of_ne_zero h.ne'
  refine ⟨?_, ?_, ?_⟩
  · unfold ofDyadic
    dsimp only
    split
    · decide
    · exact Nat.pow_pos two_pos
  · rw [low_ofPattern, center_ofDyadic]
    exact midpoint_lt_number lower
  · rw [high_ofPattern, center_ofDyadic]
    exact number_lt_midpoint _

/-- **The bracket of a double holds the numbers that round to it.** -/
theorem holds_ofPattern {bits : Nat} (h : 0 < bits) (r : ℚ) :
    (ofDyadic (.ofPattern bits)).Holds r ↔ Rounds r bits := by
  obtain ⟨lower, rfl⟩ := Nat.exists_eq_add_one_of_ne_zero h.ne'
  rw [Holds, if_congr (closed_ofPattern _) rfl rfl, low_ofPattern, high_ofPattern]
  by_cases heven : Even (lower + 1)
  · rw [if_pos heven]
    refine ⟨fun ⟨hlow, hhigh⟩ => ⟨?_, ?_⟩, fun ⟨hbelow, habove⟩ => ⟨?_, ?_⟩⟩
    · exact hhigh.lt_or_eq.imp_right fun h => ⟨h, heven⟩
    · rintro _ ⟨⟩
      exact hlow.lt_or_eq.imp_right fun h => ⟨h, heven⟩
    · exact (habove lower rfl).elim le_of_lt fun h => h.1.le
    · exact hbelow.elim le_of_lt fun h => h.1.le
  · rw [if_neg heven]
    refine ⟨fun ⟨hlow, hhigh⟩ => ⟨.inl hhigh, ?_⟩, fun ⟨hbelow, habove⟩ => ⟨?_, ?_⟩⟩
    · rintro _ ⟨⟩
      exact .inl hlow
    · exact (habove lower rfl).resolve_right fun h => heven h.2
    · exact hbelow.resolve_right fun h => heven h.2

/-- The bracket of a double is not much shorter than the last bit of its mantissa. -/
theorem center_le_length {bits : Nat} (h : 0 < bits) :
    number bits ≤ 2 ^ 53 *
      ((ofDyadic (.ofPattern bits)).high - (ofDyadic (.ofPattern bits)).low) := by
  obtain ⟨lower, rfl⟩ := Nat.exists_eq_add_one_of_ne_zero h.ne'
  obtain ⟨_, m, _, hm, _, hpattern⟩ := exists_ofPattern_eq (lower + 1)
  have hlt : (Dyadic.ofPattern (lower + 1)).mantissa < 2 * leadingBit := by rwa [hpattern]
  rw [high_ofPattern, low_ofPattern, midpoint_eq_add, midpoint_eq_sub, exponent_ofPattern lower,
    number, Dyadic.value]
  generalize Dyadic.ofPattern (lower + 1) = x at hlt
  have hunit : (0 : ℚ) < 2 ^ x.exponent := zpow_pos two_pos _
  have hmantissa : (x.mantissa : ℚ) * 2 ^ x.exponent ≤ 2 ^ 53 * 2 ^ x.exponent := by
    refine mul_le_mul_of_nonneg_right ?_ hunit.le
    exact_mod_cast hlt.le
  split
  next hpower =>
    rw [hpower.1, zpow_sub_one₀ two_ne_zero]
    norm_num [leadingBit, fractionBits]
    linarith
  next => linarith

end Bracket

end LoxLang.Binary64
