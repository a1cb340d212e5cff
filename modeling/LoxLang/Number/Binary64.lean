/-!
# Binary64 numbers as dyadic rationals

A finite double is a sign and a dyadic rational `mantissa · 2 ^ exponent`. `magnitude` reads that
rational off the bits, and `nearest` goes the other way: it rounds a ratio of natural numbers to the
closest double, a tie going to the even mantissa. `ofDecimal` is `nearest` on a decimal numeral.
Everything here is exact arithmetic on natural numbers.
-/

namespace LoxLang.Binary64

/-- The nonnegative rational `mantissa · 2 ^ exponent`. -/
structure Dyadic where
  mantissa : Nat
  exponent : Int
deriving DecidableEq, Repr

/-- What the bits of a double say once its sign is left out. -/
inductive Magnitude
  | finite (value : Dyadic)
  | infinite
  | notANumber
deriving DecidableEq, Repr

/-- The mantissa of a normal number starts with a one in front of this many bits. -/
def fractionBits : Nat := 52

/-- The mantissa of a normal number reaches from here to twice as much, and the patterns of the
doubles with one exponent span this many numbers. -/
def leadingBit : Nat := Nat.pow 2 fractionBits

/-- The exponent of the smallest positive double. -/
def leastExponent : Int := -1074

/-- The bits of positive infinity, the first pattern above those of the finite doubles. -/
def infinityBits : Nat := 2047 * leadingBit

/-- The magnitude coded by the 63 bits below the sign: biased exponent, then fraction. -/
def Magnitude.ofBits (bits : Nat) : Magnitude :=
  let biased := bits / leadingBit
  let fraction := bits % leadingBit
  if biased = 0 then .finite ⟨fraction, leastExponent⟩
  else if biased < 2047 then .finite ⟨leadingBit + fraction, leastExponent + (biased - 1)⟩
  else if fraction = 0 then .infinite
  else .notANumber

/-- The bit above the magnitude. -/
def signBit : Nat := Nat.pow 2 63

/-- Whether the sign bit is set. -/
def isNegative (n : Float) : Bool := signBit ≤ n.toBits.toNat

/-- The magnitude of a double. -/
def magnitude (n : Float) : Magnitude := .ofBits (n.toBits.toNat % signBit)

/-- The numerator and the denominator of `num / den` divided by `base ^ k`. -/
def scaleDown (num den base : Nat) (k : Int) : Nat × Nat :=
  if 0 ≤ k then (num, den * Nat.pow base k.toNat) else (num * Nat.pow base (-k).toNat, den)

/-- The `e` with `2 ^ e ≤ num / den < 2 ^ (e + 1)`, for a positive ratio. -/
def floorLog2 (num den : Nat) : Int :=
  let e : Int := (num.log2 : Int) - den.log2
  let (n, d) := scaleDown num den 2 e
  if d ≤ n then e else e - 1

/-- The integer closest to `num / den`; of two equally close ones the even one. -/
def roundHalfEven (num den : Nat) : Nat :=
  let below := num / den
  let twice := 2 * (num % den)
  if twice < den then below
  else if den < twice then below + 1
  else if below % 2 = 0 then below
  else below + 1

/-- The bits of the double closest to `num / den`, for a positive ratio. A mantissa that rounds up
to the next power of two carries into the exponent, as the two are neighbours in the pattern. -/
def nearestBits (num den : Nat) : Nat :=
  let e := max (floorLog2 num den - fractionBits) leastExponent
  let (n, d) := scaleDown num den 2 e
  min ((e - leastExponent).toNat * leadingBit + roundHalfEven n d) infinityBits

/-- The double closest to `num / den`; of two equally close ones that with an even mantissa, and
infinity once the ratio is too large to round to a finite double. -/
def nearest (num den : Nat) : Float :=
  .ofBits (.ofNat (if num = 0 then 0 else nearestBits num den))

/-- The double closest to `digits / 10 ^ places`. -/
def ofDecimal (digits places : Nat) : Float := nearest digits (Nat.pow 10 places)

end LoxLang.Binary64
