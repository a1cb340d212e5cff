import LoxLang.Number.Binary64

/-!
# Shortest decimals

The reals that round to a given double form an interval, its `Bracket`. `shortest` picks the decimal
in it that has the fewest digits and, among those, the one closest to the double. It walks through
the decimal grids from the coarsest on and looks at the two neighbours of the double on each; when
both lie in the bracket and are equally close, a `Tie` decides.
-/

namespace LoxLang.Binary64

/-- The decimal `digits · 10 ^ exponent`. -/
structure Decimal where
  digits : Nat
  exponent : Int
deriving DecidableEq, Repr

/-- Which of two equally close neighbours on a grid is taken. -/
inductive Tie
  | up
  | even
deriving DecidableEq, Repr

/-- The reals that round to a double: they lie between `lower / den` and `upper / den`, ends
included iff `closed`, and `value / den` is the double itself. -/
structure Bracket where
  lower : Nat
  value : Nat
  upper : Nat
  den : Nat
  closed : Bool
deriving DecidableEq, Repr

/-- The bracket of a positive double. It reaches half way to each neighbour, and the lower
neighbour of a power of two is only half as far away. The ends round to an even mantissa. -/
def Bracket.ofDyadic (x : Dyadic) : Bracket :=
  let quarter := x.exponent - 2
  let unit := if 0 ≤ quarter then Nat.pow 2 quarter.toNat else 1
  let below := if x.mantissa = leadingBit ∧ leastExponent < x.exponent then 1 else 2
  { lower := (4 * x.mantissa - below) * unit
    value := 4 * x.mantissa * unit
    upper := (4 * x.mantissa + 2) * unit
    den := if 0 ≤ quarter then 1 else Nat.pow 2 (-quarter).toNat
    closed := x.mantissa % 2 = 0 }

/-- Whether `num / den` is at or above the lower end, over the bracket's own denominator. -/
def Bracket.reachesLower (b : Bracket) (num : Nat) : Bool :=
  if b.closed then b.lower ≤ num else b.lower < num

/-- Whether `num / den` is at or below the upper end, over the bracket's own denominator. -/
def Bracket.reachesUpper (b : Bracket) (num : Nat) : Bool :=
  if b.closed then num ≤ b.upper else num < b.upper

/-- The bracket divided by `10 ^ k`. -/
def Bracket.scaleDown (b : Bracket) (k : Int) : Bracket :=
  let factor := if 0 ≤ k then 1 else Nat.pow 10 (-k).toNat
  { lower := b.lower * factor
    value := b.value * factor
    upper := b.upper * factor
    den := if 0 ≤ k then b.den * Nat.pow 10 k.toNat else b.den
    closed := b.closed }

/-- The integer of the bracket closest to its value, if the bracket holds an integer. -/
def Bracket.integer? (b : Bracket) (tie : Tie) : Option Nat :=
  let below := b.value / b.den
  let twice := 2 * (b.value % b.den)
  match b.reachesLower (below * b.den), b.reachesUpper ((below + 1) * b.den) with
  | false, false => none
  | true, false => some below
  | false, true => some (below + 1)
  | true, true =>
    if twice < b.den then some below
    else if b.den < twice then some (below + 1)
    else match tie with
      | .up => some (below + 1)
      | .even => some (if below % 2 = 0 then below else below + 1)

/-- The number of decimal digits of a natural number. -/
def digitCount (n : Nat) : Nat := (Nat.toDigits 10 n).length

/-- The `p` with `10 ^ (p - 1) ≤ value < 10 ^ p`: where the decimal point stands. -/
def Bracket.point (b : Bracket) : Int :=
  let p : Int := (digitCount b.value : Int) - digitCount b.den
  let s := b.scaleDown p
  if s.value < s.den then p else p + 1

/-- The decimal without the zeros at its end. -/
def Decimal.trim (d : Decimal) : Decimal :=
  if 0 < d.digits ∧ d.digits % 10 = 0 then Decimal.trim ⟨d.digits / 10, d.exponent + 1⟩ else d
termination_by d.digits

/-- Seventeen significant digits tell any two doubles apart. -/
def mostDigits : Nat := 17

/-- The decimal of fewest digits that reads back as the given positive double and, among those,
the one closest to it. -/
def shortest (tie : Tie) (x : Dyadic) : Decimal :=
  let b := Bracket.ofDyadic x
  let p := b.point
  let found := (List.range mostDigits).findSome? fun (i : Nat) =>
    let k := p - (i + 1)
    ((b.scaleDown k).integer? tie).map fun c => Decimal.mk c k
  (found.getD ⟨0, 0⟩).trim

end LoxLang.Binary64
