import LoxLang.Proofs.Number.Integers
import LoxLang.Proofs.Token.Spacing

/-!
# Reading printed numbers

A decimal in positional notation is a numeral of the language whose value is the double the decimal
is read as (`Decimal.spells_positional`). So a printed number is scanned into a minus sign, if it is
negative, and one number (`scan_positional`), and this number is the double that was printed,
without its sign (`printed_reads_back`).
-/

namespace LoxLang.Binary64

open Piece

theorem natOfDigits_eq (digits : List Char) :
    natOfDigits digits = Nat.ofDigitChars 10 digits 0 := rfl

/-- Zeros in front of the digits of a number do not change it. -/
theorem natOfDigits_zeros_append (k n : Nat) :
    natOfDigits (List.replicate k '0' ++ Nat.toDigits 10 n) = n := by
  rw [natOfDigits_eq, Nat.ofDigitChars_append, Nat.ofDigitChars_replicate_zero, Nat.mul_zero,
    Nat.ofDigitChars_ten_toDigits]

/-- Zeros behind the digits of a number multiply it. -/
theorem natOfDigits_append_zeros (k n : Nat) :
    natOfDigits (Nat.toDigits 10 n ++ List.replicate k '0') = n * 10 ^ k := by
  rw [natOfDigits_eq, Nat.ofDigitChars_append, Nat.ofDigitChars_replicate_zero,
    Nat.ofDigitChars_ten_toDigits, Nat.mul_comm]

theorem isDigit_of_mem_replicate {k : Nat} {c : Char} (h : c ∈ List.replicate k '0') :
    c.isDigit := by
  rw [List.eq_of_mem_replicate h]
  rfl

theorem isDigit_of_mem_toDigits {n : Nat} {c : Char} (h : c ∈ Nat.toDigits 10 n) : c.isDigit :=
  Nat.isDigit_of_mem_toDigits (by decide) (by decide) h

/-- A point in front of the last digits of a number makes a numeral of them. -/
theorem exists_pointed_eq (n : Nat) {places : Nat} (hplaces : 0 < places) :
    ∃ whole rest, whole ≠ [] ∧ rest.length = places ∧ (∀ c ∈ whole ++ rest, c.isDigit) ∧
      natOfDigits (whole ++ rest) = n ∧
      (pointed (digitText n) places).toList = whole ++ '.' :: rest := by
  have hlength : (digitText n).length = (Nat.toDigits 10 n).length := by
    simp [digitText]
  unfold pointed
  simp only [hlength]
  split
  next hwhole =>
    refine ⟨['0'], List.replicate (places - (Nat.toDigits 10 n).length) '0' ++ Nat.toDigits 10 n,
      List.cons_ne_nil _ _, ?_, ?_, ?_, ?_⟩
    · rw [List.length_append, List.length_replicate]
      omega
    · rintro c hc
      rcases List.mem_append.1 hc with hc | hc
      · exact isDigit_of_mem_replicate (k := 1) hc
      rcases List.mem_append.1 hc with hc | hc
      · exact isDigit_of_mem_replicate hc
      · exact isDigit_of_mem_toDigits hc
    · exact natOfDigits_zeros_append (places - (Nat.toDigits 10 n).length + 1) n
    · simp [zeros, digitText]
  next hwhole =>
    refine ⟨(Nat.toDigits 10 n).take ((Nat.toDigits 10 n).length - places),
      (Nat.toDigits 10 n).drop ((Nat.toDigits 10 n).length - places), ?_, ?_, ?_, ?_, ?_⟩
    · rw [← List.length_pos_iff, List.length_take]
      omega
    · rw [List.length_drop]
      omega
    · rw [List.take_append_drop]
      exact fun c hc => isDigit_of_mem_toDigits hc
    · rw [List.take_append_drop]
      exact natOfDigits_zeros_append 0 n
    · simp [digitText]

/-- A decimal in positional notation is a numeral, and its value is the double the decimal is read
as. -/
theorem Decimal.spells_positional (d : Decimal) :
    Kind.Spells (.number d.read) d.positional.toList := by
  unfold Decimal.read Decimal.positional
  split
  next hexponent =>
    have htext : (digitText d.digits ++ zeros d.exponent.toNat).toList =
        Nat.toDigits 10 d.digits ++ List.replicate d.exponent.toNat '0' := by
      simp [digitText, zeros]
    rw [htext, ← natOfDigits_append_zeros]
    refine .integer ?_ fun c hc => ?_
    · simp
    · rcases List.mem_append.1 hc with hc | hc
      · exact isDigit_iff.1 (isDigit_of_mem_toDigits hc)
      · exact isDigit_iff.1 (isDigit_of_mem_replicate hc)
  next hexponent =>
    have hplaces : 0 < (-d.exponent).toNat := by omega
    obtain ⟨whole, rest, hwhole, hlength, hdigits, hvalue, htext⟩ :=
      exists_pointed_eq d.digits hplaces
    rw [htext, ← hvalue, ← hlength]
    refine .decimal hwhole ?_ fun c hc => isDigit_iff.1 (hdigits c hc)
    rw [← List.length_pos_iff, hlength]
    exact hplaces

/-- There is no line feed in a number. -/
theorem lineFeed_not_mem {value : Float} {text : List Char} (h : Kind.Spells (.number value) text) :
    '\n' ∉ text := by
  cases h with
  | sign h => simp [Kind.signs] at h
  | keyword h => simp [Kind.reserved] at h
  | integer _ hdigits => exact fun hmem => absurd (isDigit_iff.2 (hdigits _ hmem)) (by decide)
  | @decimal whole places _ _ hdigits =>
    have hnone : '\n' ∉ whole ++ places :=
      fun hmem => absurd (isDigit_iff.2 (hdigits _ hmem)) (by decide)
    simpa using hnone

/-- **A decimal with a sign is scanned into the sign and one number.** -/
theorem scan_positional (negative : Bool) (d : Decimal) :
    Item.scan (signText negative ++ d.positional) =
      (if negative then [.token ⟨.minus, "-", 1⟩] else []) ++
        [.token ⟨.number d.read, d.positional, 1⟩, .token (.endMark 1)] := by
  have hspells := d.spells_positional
  have hline := List.count_eq_zero.2 (lineFeed_not_mem hspells)
  have hitems (line : Nat) : items line (cut d.positional.toList) =
      [.token ⟨.number d.read, d.positional, line⟩, .token (.endMark line)] := by
    rw [cut_token hspells]
    simp [items, item?, hline]
  cases negative with
  | false =>
    rw [signText, if_neg (by decide), String.empty_append, Item.scan, hitems]
    rfl
  | true =>
    have hcut : cut ("-" ++ d.positional).toList =
        ⟨.token .minus, ['-']⟩ :: cut d.positional.toList := by
      rw [String.toList_append]
      show cut ('-' :: _) = _
      rw [cut]
      rfl
    rw [signText, if_pos rfl, Item.scan, hcut, items, hitems]
    rfl

/-- The text of a finite double is scanned into its sign and the double without it. -/
theorem exists_scan_print {bits : UInt64} (h : bits.toNat % signBit < infinityBits) :
    ∃ value lexeme, value.toBits.toNat = bits.toNat % signBit ∧ Item.scan (print (.ofBits bits)) =
      (if signBit ≤ bits.toNat then [.token ⟨.minus, "-", 1⟩] else []) ++
        [.token ⟨.number value, lexeme, 1⟩, .token (.endMark 1)] := by
  obtain ⟨d, hd, htext, -⟩ := exists_positional_eq h
  refine ⟨d.read, d.positional, hd.read, ?_⟩
  rw [print_eq_positional, htext, scan_positional]
  simp only [decide_eq_true_eq]

/-- **Printed numbers read back exactly.** The text of a finite double is scanned without an error
into a minus sign, if the sign bit is set, one number and the end mark, and the bits of this number
are those of the double below the sign bit. So different doubles are printed differently. -/
theorem printed_reads_back :
    (∀ bits : UInt64, bits.toNat % signBit < infinityBits → ∃ value lexeme,
      value.toBits.toNat = bits.toNat % signBit ∧
      Item.scan (print (.ofBits bits)) =
        (if signBit ≤ bits.toNat then [.token ⟨.minus, "-", 1⟩] else []) ++
          [.token ⟨.number value, lexeme, 1⟩, .token (.endMark 1)]) ∧
    ∀ bits bits' : UInt64, bits.toNat % signBit < infinityBits →
      bits'.toNat % signBit < infinityBits → print (.ofBits bits) = print (.ofBits bits') →
      bits = bits' := by
  refine ⟨fun bits h => exists_scan_print h, fun bits bits' h h' htext => ?_⟩
  obtain ⟨value, lexeme, hvalue, hscan⟩ := exists_scan_print h
  obtain ⟨value', lexeme', hvalue', hscan'⟩ := exists_scan_print h'
  rw [htext, hscan'] at hscan
  have hsame : (signBit ≤ bits.toNat ↔ signBit ≤ bits'.toNat) ∧ value = value' := by
    by_cases hsign : signBit ≤ bits.toNat <;> by_cases hsign' : signBit ≤ bits'.toNat <;>
      simp only [hsign, hsign', if_true, if_false] at hscan
    · have heq : value' = value ∧ lexeme' = lexeme := by simpa using hscan
      exact ⟨iff_of_true hsign hsign', heq.1.symm⟩
    · simp at hscan
    · simp at hscan
    · have heq : value' = value ∧ lexeme' = lexeme := by simpa using hscan
      exact ⟨iff_of_false hsign hsign', heq.1.symm⟩
  obtain ⟨hsign, rfl⟩ := hsame
  have hlt : bits.toNat < 2 ^ 64 := bits.toBitVec.isLt
  have hlt' : bits'.toNat < 2 ^ 64 := bits'.toBitVec.isLt
  refine UInt64.toNat_inj.1 ?_
  simp only [signBit, Nat.pow_eq] at *
  omega

/-- Minus one half and the smallest positive double, which has 324 places. -/
theorem minus_half_reads_back :
    let half : UInt64 := 0xBFE0000000000000
    let least : UInt64 := 1
    half.toNat % signBit < infinityBits ∧ least.toNat % signBit < infinityBits ∧
      (∃ value lexeme, value.toBits = 0x3FE0000000000000 ∧ Item.scan (print (.ofBits half)) =
        [.token ⟨.minus, "-", 1⟩, .token ⟨.number value, lexeme, 1⟩, .token (.endMark 1)]) ∧
      print (.ofBits half) ≠ print (.ofBits least) := by
  intro half least
  have hhalf : half.toNat % signBit < infinityBits := by decide
  have hleast : least.toNat % signBit < infinityBits := by decide
  refine ⟨hhalf, hleast, ?_, fun h => ?_⟩
  · obtain ⟨value, lexeme, hvalue, hscan⟩ := printed_reads_back.1 half hhalf
    exact ⟨value, lexeme, UInt64.toNat_inj.1 (hvalue.trans (by decide)), hscan⟩
  · exact absurd (printed_reads_back.2 half least hhalf hleast h) (by decide)

end LoxLang.Binary64
