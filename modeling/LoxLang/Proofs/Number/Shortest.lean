import LoxLang.Proofs.Number.Bracket

/-!
# Shortest decimals

`shortest` gives a decimal that is read as the double it is taken from, and no decimal that is read
so has fewer digits, or as many and is closer (`isShortest_shortest`). It walks through ever finer
grids of decimals. If some decimal rounds to the double, there is one on the grid of as many digits
(`exists_gridDecimal`), so the search goes no further; and the grid of seventeen digits is finer
than every bracket is long (`exists_holds_seventeen`), so it does not fail.
-/

namespace LoxLang.Binary64

/-- The number a decimal is. -/
def Decimal.value (d : Decimal) : ℚ := d.digits * 10 ^ d.exponent

/-- The double a decimal is read as. -/
def Decimal.read (d : Decimal) : Float :=
  if 0 ≤ d.exponent then ofDecimal (d.digits * 10 ^ d.exponent.toNat) 0
  else ofDecimal d.digits (-d.exponent).toNat

/-- `d.IsShortest bits`: the decimal is read as the double of this pattern, no decimal of fewer
digits is, and none of as many digits is closer to the double. -/
structure Decimal.IsShortest (d : Decimal) (bits : Nat) : Prop where
  read : d.read.toBits.toNat = bits
  digitCount_le : ∀ {other : Decimal}, other.read.toBits.toNat = bits →
    digitCount d.digits ≤ digitCount other.digits
  closest : ∀ {other : Decimal}, other.read.toBits.toNat = bits →
    digitCount other.digits = digitCount d.digits →
    |d.value - number bits| ≤ |other.value - number bits|

theorem toBits_ofDecimal_eq_iff (digits places : Nat) {bits : Nat} (h : bits < infinityBits) :
    (ofDecimal digits places).toBits.toNat = bits ↔ Rounds (digits / 10 ^ places) bits := by
  have hpos : 0 < 10 ^ places := Nat.pow_pos (by decide)
  rw [ofDecimal, Nat.pow_eq, toBits_nearest_eq_iff digits hpos h, Nat.cast_pow, Nat.cast_ofNat]

/-- A decimal is read as the double it rounds to. -/
theorem Decimal.toBits_read_eq_iff (d : Decimal) {bits : Nat} (h : bits < infinityBits) :
    d.read.toBits.toNat = bits ↔ Rounds d.value bits := by
  unfold read value
  split
  next hexponent =>
    rw [toBits_ofDecimal_eq_iff _ _ h]
    obtain ⟨n, hn⟩ := Int.eq_ofNat_of_zero_le hexponent
    simp [hn]
  next hexponent =>
    rw [toBits_ofDecimal_eq_iff _ _ h]
    obtain ⟨n, hn⟩ := Int.exists_eq_neg_ofNat (Int.le_of_not_le hexponent)
    simp [hn, div_eq_mul_inv]

/-! ## Digits -/

theorem digitCount_pos (n : Nat) : 0 < digitCount n := Nat.length_toDigits_pos

theorem digitCount_le_iff {n k : Nat} (hk : 0 < k) : digitCount n ≤ k ↔ n < 10 ^ k :=
  Nat.length_toDigits_le_iff (by decide) hk

theorem lt_pow_digitCount (n : Nat) : n < 10 ^ digitCount n :=
  (digitCount_le_iff (digitCount_pos n)).1 (Nat.le_refl _)

theorem pow_digitCount_le {n : Nat} (h : 0 < n) : 10 ^ (digitCount n - 1) ≤ n := by
  rcases Nat.eq_zero_or_pos (digitCount n - 1) with hzero | hpos
  · rw [hzero]
    exact h
  · refine Nat.le_of_not_lt fun hlt => ?_
    have := (digitCount_le_iff hpos).2 hlt
    omega

namespace Decimal

/-- Zeros at the end are taken into the exponent. -/
theorem value_trim (d : Decimal) : d.trim.value = d.value := by
  fun_induction trim d with
  | case1 d h ih =>
    have hdigits : (d.digits : ℚ) = (d.digits / 10 : Nat) * 10 := by
      exact_mod_cast (Nat.div_mul_cancel (Nat.dvd_of_mod_eq_zero h.2)).symm
    rw [ih, value, value, hdigits, zpow_add_one₀ (by norm_num)]
    ring
  | case2 d h => rfl

theorem exponent_le_trim (d : Decimal) : d.exponent ≤ d.trim.exponent := by
  fun_induction trim d with
  | case1 d h ih => exact (Int.le_add_one (Int.le_refl _)).trans ih
  | case2 d h => exact Int.le_refl _

theorem digits_trim_le (d : Decimal) : d.trim.digits ≤ d.digits := by
  fun_induction trim d with
  | case1 d h ih => exact ih.trans (Nat.div_le_self _ _)
  | case2 d h => exact Nat.le_refl _

/-- A power of ten counts as a single digit. -/
theorem digitCount_trim_le {d : Decimal} {k : Nat} (hk : 0 < k) (h : d.digits ≤ 10 ^ k) :
    digitCount d.trim.digits ≤ k := by
  rw [digitCount_le_iff hk]
  rcases Nat.lt_or_eq_of_le h with hlt | heq
  · exact d.digits_trim_le.trans_lt hlt
  · obtain ⟨k, rfl⟩ := Nat.exists_eq_add_one_of_ne_zero hk.ne'
    rw [Nat.pow_succ] at heq
    have hpos : 0 < 10 ^ k := Nat.pow_pos (by decide)
    rw [trim, if_pos (by omega)]
    refine (digits_trim_le _).trans_lt ?_
    rw [Nat.pow_succ]
    dsimp only
    omega

end Decimal

namespace Bracket

variable {b : Bracket}

theorem Proper.value_pos (h : b.Proper) : 0 < b.value := by
  refine Nat.pos_of_ne_zero fun hzero => ?_
  have hlow : 0 ≤ b.low := div_nonneg (Nat.cast_nonneg _) (Nat.cast_nonneg _)
  have hcenter : b.center = 0 := by rw [center, hzero, Nat.cast_zero, zero_div]
  exact (hlow.trans_lt h.low_lt).ne' hcenter

/-- Where the decimal point stands. -/
theorem Proper.point_spec (h : b.Proper) :
    (10 : ℚ) ^ (b.point - 1) ≤ b.center ∧ b.center < 10 ^ b.point := by
  have hten : (0 : ℚ) < 10 := by norm_num
  have hdigits (n : Nat) : digitCount n - 1 + 1 = digitCount n :=
    Nat.sub_add_cancel (digitCount_pos n)
  have hupper (n : Nat) : n < 10 ^ (digitCount n - 1 + 1) := by
    rw [hdigits]
    exact lt_pow_digitCount n
  have hbase : 0 < 10 := by decide
  have hbounds := zpow_lt_div hbase (pow_digitCount_le h.value_pos) (hupper b.value)
    (pow_digitCount_le h.den_pos) (hupper b.den)
  have hexponent : ((digitCount b.value - 1 : Nat) : Int) - (digitCount b.den - 1 : Nat) =
      (digitCount b.value : Int) - digitCount b.den := by
    have hvalue := hdigits b.value
    have hden := hdigits b.den
    omega
  rw [hexponent, Nat.cast_ofNat] at hbounds
  have hcompare (k : Int) : (b.scaleDown k).value < (b.scaleDown k).den ↔ b.center < 10 ^ k := by
    have hpos : (0 : ℚ) < (b.scaleDown k).den := by exact_mod_cast (h.scaleDown k).den_pos
    rw [← div_lt_one (zpow_pos hten k), ← center_scaleDown, center, div_lt_one hpos, Nat.cast_lt]
  simp only [point]
  split
  next hlt => exact ⟨hbounds.1.le, (hcompare _).1 hlt⟩
  next hle =>
    rw [Int.add_sub_cancel]
    exact ⟨not_lt.1 (mt (hcompare _).2 hle), hbounds.2⟩

end Bracket

/-! ## The search -/

/-- The bracket of a double over the grid of decimals with so many digits. -/
def onGrid (bits digits : Nat) : Bracket :=
  (Bracket.ofDyadic (.ofPattern bits)).scaleDown
    ((Bracket.ofDyadic (.ofPattern bits)).point - digits)

/-- The decimal of that grid with these digits. -/
def gridDecimal (bits digits n : Nat) : Decimal :=
  ⟨n, (Bracket.ofDyadic (.ofPattern bits)).point - digits⟩

/-- The distance of a decimal from the double is counted in steps of the grid. -/
theorem abs_gridDecimal_sub (bits digits n : Nat) :
    |(gridDecimal bits digits n).value - number bits| = |n - (onGrid bits digits).center| *
      10 ^ ((Bracket.ofDyadic (.ofPattern bits)).point - digits) := by
  have hpos : (0 : ℚ) < 10 ^ ((Bracket.ofDyadic (.ofPattern bits)).point - digits) :=
    zpow_pos (by norm_num) _
  have hcenter : number bits = (onGrid bits digits).center *
      10 ^ ((Bracket.ofDyadic (.ofPattern bits)).point - digits) := by
    rw [onGrid, Bracket.center_scaleDown, Bracket.center_ofDyadic, div_mul_cancel₀ _ hpos.ne']
    rfl
  rw [hcenter, Decimal.value, gridDecimal, ← sub_mul, abs_mul, abs_of_pos hpos]

theorem findSome?_range_eq_some {α : Type} {f : Nat → Option α} {n : Nat} {a : α}
    (h : (List.range n).findSome? f = some a) : ∃ i < n, f i = some a ∧ ∀ j < i, f j = none := by
  induction n with
  | zero => cases h
  | succ n ih =>
    rw [List.range_succ, List.findSome?_append] at h
    cases hfound : (List.range n).findSome? f with
    | some found =>
      rw [hfound] at h
      cases h
      obtain ⟨i, hi, hsome, hnone⟩ := ih hfound
      exact ⟨i, Nat.lt_succ_of_lt hi, hsome, hnone⟩
    | none =>
      rw [hfound] at h
      refine ⟨n, Nat.lt_succ_self n, by simpa using h, fun j hj => ?_⟩
      exact List.findSome?_eq_none_iff.1 hfound j (List.mem_range.2 hj)

section
variable {bits : Nat} (h : 0 < bits)
include h

theorem proper_onGrid (digits : Nat) : (onGrid bits digits).Proper :=
  (Bracket.proper_ofPattern h).scaleDown _

/-- A decimal of the grid rounds to the double iff its digits lie in the bracket. -/
theorem holds_onGrid_iff (digits n : Nat) :
    (onGrid bits digits).Holds n ↔ Rounds (gridDecimal bits digits n).value bits := by
  rw [onGrid, Bracket.holds_scaleDown, Bracket.holds_ofPattern h]
  rfl

theorem point_bounds : (10 : ℚ) ^ ((Bracket.ofDyadic (.ofPattern bits)).point - 1) ≤ number bits ∧
    number bits < 10 ^ (Bracket.ofDyadic (.ofPattern bits)).point := by
  have hpoint := (Bracket.proper_ofPattern h).point_spec
  rwa [Bracket.center_ofDyadic] at hpoint

/-- If some decimal rounds to the double, then so does one of the grid of as many digits, and it is
at least as close. -/
theorem exists_gridDecimal {d : Decimal} (hd : Rounds d.value bits) :
    ∃ n : Nat, Rounds (gridDecimal bits (digitCount d.digits) n).value bits ∧
      |(gridDecimal bits (digitCount d.digits) n).value - number bits| ≤
        |d.value - number bits| := by
  obtain ⟨hpoint, -⟩ := point_bounds h
  have hten : (10 : ℚ) ≠ 0 := by norm_num
  have hdigits := digitCount_pos d.digits
  have hnumber := rounds_number bits
  have hvalue (n : Nat) : (gridDecimal bits (digitCount d.digits) n).value =
      n * 10 ^ ((Bracket.ofDyadic (.ofPattern bits)).point - digitCount d.digits) := rfl
  simp only [hvalue]
  generalize (Bracket.ofDyadic (.ofPattern bits)).point = p at hpoint
  rcases le_or_gt (p - digitCount d.digits) d.exponent with hle | hlt
  · -- the decimal itself lies on the grid
    obtain ⟨k, hk⟩ := Int.le.dest hle
    have hself : ((d.digits * 10 ^ k : Nat) : ℚ) * 10 ^ (p - digitCount d.digits) = d.value := by
      rw [Decimal.value, ← hk, zpow_add₀ hten, zpow_natCast]
      push_cast
      ring
    exact ⟨d.digits * 10 ^ k, hself.symm ▸ hd, by rw [hself]⟩
  · -- the decimal is below the power of ten that the double reaches
    have hpower : ((10 ^ (digitCount d.digits - 1) : Nat) : ℚ) * 10 ^ (p - digitCount d.digits) =
        10 ^ (p - 1) := by
      rw [Nat.cast_pow, ← zpow_natCast, Nat.cast_ofNat, ← zpow_add₀ hten]
      congr 1
      omega
    have hbelow : d.value ≤ 10 ^ (p - 1) := by
      calc d.value ≤ 10 ^ (digitCount d.digits : Int) * 10 ^ d.exponent := by
            refine mul_le_mul_of_nonneg_right ?_ (zpow_pos (by norm_num) _).le
            exact_mod_cast (lt_pow_digitCount d.digits).le
        _ = 10 ^ (digitCount d.digits + d.exponent : Int) := (zpow_add₀ hten _ _).symm
        _ ≤ 10 ^ (p - 1) := zpow_le_zpow_right₀ (by norm_num) (by omega)
    refine ⟨10 ^ (digitCount d.digits - 1), ?_, ?_⟩
    · rw [← Bracket.holds_ofPattern h] at hd hnumber ⊢
      rw [hpower]
      exact hd.between hnumber hbelow hpoint
    · rw [hpower, abs_of_nonpos (sub_nonpos.2 hpoint),
        abs_of_nonpos (sub_nonpos.2 (hbelow.trans hpoint))]
      exact neg_le_neg (sub_le_sub_right hbelow _)

/-- The grid of seventeen digits is finer than the bracket is long. -/
theorem exists_holds_seventeen : ∃ n : Nat, (onGrid bits mostDigits).Holds n := by
  refine (proper_onGrid h mostDigits).exists_holds ?_
  have hlength := Bracket.center_le_length h
  obtain ⟨hpoint, -⟩ := point_bounds h
  rw [onGrid, Bracket.low_scaleDown, Bracket.high_scaleDown]
  generalize (Bracket.ofDyadic (.ofPattern bits)).point = p at hpoint
  have hgrid : (10 : ℚ) ^ (p - 1) = 10 ^ (p - mostDigits) * 10 ^ 16 := by
    show (10 : ℚ) ^ (p - 1) = 10 ^ (p - 17) * 10 ^ (16 : Int)
    rw [← zpow_add₀ (by norm_num)]
    congr 1
    ring
  have hpos : (0 : ℚ) < 10 ^ (p - mostDigits) := zpow_pos (by norm_num) _
  rw [← sub_pos, ← sub_sub, ← sub_div, sub_pos, lt_div_iff₀ hpos]
  linarith

/-- The search finds the coarsest grid with a decimal that rounds to the double. -/
theorem exists_found (tie : Tie) : ∃ i n, (onGrid bits (i + 1)).integer? tie = some n ∧
    (∀ j < i, (onGrid bits (j + 1)).integer? tie = none) ∧
    shortest tie (.ofPattern bits) = (gridDecimal bits (i + 1) n).trim := by
  let search (i : Nat) : Option Decimal :=
    ((onGrid bits (i + 1)).integer? tie).map (gridDecimal bits (i + 1))
  have hsearch : shortest tie (.ofPattern bits) =
      (((List.range mostDigits).findSome? search).getD ⟨0, 0⟩).trim := rfl
  have hsome : ((List.range mostDigits).findSome? search).isSome := by
    obtain ⟨n, hn⟩ := exists_holds_seventeen h
    rw [List.findSome?_isSome_iff]
    refine ⟨16, by decide, ?_⟩
    rw [Option.isSome_map]
    exact (proper_onGrid h 17).isSome_integer? hn tie
  obtain ⟨d, hd⟩ := Option.isSome_iff_exists.1 hsome
  obtain ⟨i, -, hi, hnone⟩ := findSome?_range_eq_some hd
  obtain ⟨n, hn, rfl⟩ := Option.map_eq_some_iff.1 hi
  refine ⟨i, n, hn, fun j hj => Option.map_eq_none_iff.1 (hnone j hj), ?_⟩
  rw [hsearch, hd, Option.getD_some]

/-- The search goes no further than to the digits of some decimal that rounds to the double. -/
theorem le_digitCount_of_none {tie : Tie} {i : Nat}
    (hnone : ∀ j < i, (onGrid bits (j + 1)).integer? tie = none) {d : Decimal}
    (hd : Rounds d.value bits) : i + 1 ≤ digitCount d.digits := by
  by_contra! hlt
  obtain ⟨m, hm, -⟩ := exists_gridDecimal h hd
  have hsome := (proper_onGrid h _).isSome_integer? ((holds_onGrid_iff h _ m).2 hm) tie
  have hdigits := Nat.sub_add_cancel (digitCount_pos d.digits)
  rw [← hdigits, hnone _ (by omega)] at hsome
  cases hsome

/-- A grid with so many digits has no larger numbers next to the double. -/
theorem le_pow_of_integer? {tie : Tie} {digits n : Nat}
    (hn : (onGrid bits digits).integer? tie = some n) : n ≤ 10 ^ digits := by
  have hproper := proper_onGrid h digits
  have hcenter : (onGrid bits digits).center < 10 ^ digits := by
    rw [onGrid, Bracket.center_scaleDown, Bracket.center_ofDyadic,
      div_lt_iff₀ (zpow_pos (by norm_num) _), ← zpow_natCast, ← zpow_add₀ (by norm_num),
      add_sub_cancel]
    exact (point_bounds h).2
  have hfloor : (onGrid bits digits).value / (onGrid bits digits).den < 10 ^ digits := by
    exact_mod_cast (natCast_div_bounds _ hproper.den_pos).1.trans_lt hcenter
  rcases (hproper.integer?_cases hn).2 with ⟨rfl, -⟩ | ⟨rfl, -⟩
  · exact hfloor.le
  · exact hfloor

/-- The shortest decimal rounds to the double. -/
theorem rounds_shortest (tie : Tie) : Rounds (shortest tie (.ofPattern bits)).value bits := by
  obtain ⟨i, n, hfound, -, heq⟩ := exists_found h tie
  rw [heq, Decimal.value_trim, ← holds_onGrid_iff h]
  exact ((proper_onGrid h (i + 1)).integer?_cases hfound).1

/-- **The shortest decimal of a double is shortest**, and of the decimals of as many digits it is
the closest. -/
theorem isShortest_shortest (hfinite : bits < infinityBits) (tie : Tie) :
    (shortest tie (.ofPattern bits)).IsShortest bits := by
  have hrounds := rounds_shortest h tie
  obtain ⟨i, n, hfound, hnone, heq⟩ := exists_found h tie
  have hcount : digitCount (shortest tie (.ofPattern bits)).digits ≤ i + 1 :=
    heq ▸ Decimal.digitCount_trim_le (Nat.succ_pos i) (le_pow_of_integer? h hfound)
  refine ⟨(Decimal.toBits_read_eq_iff _ hfinite).2 hrounds, fun hother => ?_,
    fun {other} hother hdigits => ?_⟩
  · rw [Decimal.toBits_read_eq_iff _ hfinite] at hother
    exact hcount.trans (le_digitCount_of_none h hnone hother)
  · rw [Decimal.toBits_read_eq_iff _ hfinite] at hother
    -- the other decimal has as many digits as the grid, so the grid has one that is no further away
    have hgrid : digitCount other.digits = i + 1 :=
      Nat.le_antisymm (hdigits ▸ hcount) (le_digitCount_of_none h hnone hother)
    obtain ⟨m, hm, hcloser⟩ := exists_gridDecimal h hother
    rw [hgrid] at hm hcloser
    refine le_trans ?_ hcloser
    have hclosest := (proper_onGrid h (i + 1)).integer?_closest hfound
      ((holds_onGrid_iff h (i + 1) m).2 hm)
    rw [heq, Decimal.value_trim, abs_gridDecimal_sub, abs_gridDecimal_sub]
    exact mul_le_mul_of_nonneg_right hclosest (zpow_pos (by norm_num) _).le

end

end LoxLang.Binary64
