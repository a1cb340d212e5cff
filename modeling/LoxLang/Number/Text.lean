import LoxLang.Number.Shortest

/-!
# Texts of numbers

`print` is what a program prints for a number: integers below `10 ^ 15` are written as such, every
other number by its shortest decimal in positional notation, never with an exponent (`positional`).
`printPoint` is the form token listings use, where such integers end in `.0`. `printExponent` is
the form of data files: very large and very small numbers carry an exponent.
-/

namespace LoxLang.Binary64

/-- The digits of a natural number. -/
def digitText (n : Nat) : String := String.ofList (Nat.toDigits 10 n)

/-- A run of zeros. -/
def zeros (n : Nat) : String := String.ofList (List.replicate n '0')

/-- The text with a point in front of its last `places` characters, filled up with zeros. -/
def pointed (digits : String) (places : Nat) : String :=
  let whole := digits.length - places
  if whole = 0 then "0." ++ zeros (places - digits.length) ++ digits
  else String.ofList (digits.toList.take whole) ++ "." ++ String.ofList (digits.toList.drop whole)

/-- A decimal in positional notation; an integer has no point. -/
def Decimal.positional (d : Decimal) : String :=
  let digits := digitText d.digits
  if 0 ≤ d.exponent then digits ++ zeros d.exponent.toNat
  else pointed digits (-d.exponent).toNat

/-- The text of a sign. -/
def signText (negative : Bool) : String := if negative then "-" else ""

/-- The text of a number in positional notation, by its shortest decimal. -/
def positional (n : Float) : String :=
  match magnitude n with
  | .notANumber => "NaN"
  | .infinite => signText (isNegative n) ++ "inf"
  | .finite x =>
    signText (isNegative n) ++ if x.mantissa = 0 then "0" else (shortest .up x).positional

/-- The integer a dyadic rational is, if it is one. -/
def Dyadic.natural? (x : Dyadic) : Option Nat :=
  if 0 ≤ x.exponent then some (x.mantissa * Nat.pow 2 x.exponent.toNat)
  else if x.mantissa % Nat.pow 2 (-x.exponent).toNat = 0 then
    some (x.mantissa / Nat.pow 2 (-x.exponent).toNat)
  else none

/-- From here on integers are written like all other numbers. -/
def integerLimit : Nat := Nat.pow 10 15

/-- The absolute value of a number that is an integer below the limit. -/
def smallInteger? (n : Float) : Option Nat :=
  match magnitude n with
  | .finite x => x.natural?.filter (· < integerLimit)
  | _ => none

/-- The text a program prints for a number. -/
def print (n : Float) : String :=
  match smallInteger? n with
  | some k => signText (isNegative n) ++ digitText k
  | none => positional n

/-- The text of a number in a listing of tokens. -/
def printPoint (n : Float) : String :=
  match smallInteger? n with
  | some k => signText (isNegative n && k ≠ 0) ++ digitText k ++ ".0"
  | none => positional n

/-- A decimal in data files. With the point after `p` digits, positional notation is used for
`-5 < p ≤ 16`, and an integer then ends in `.0`. -/
def Decimal.withExponent (d : Decimal) : String :=
  let digits := digitText d.digits
  let p := (digits.length : Int) + d.exponent
  if 0 ≤ d.exponent ∧ p ≤ 16 then d.positional ++ ".0"
  else if -5 < p ∧ p ≤ 16 then d.positional
  else
    let lead := if digits.length = 1 then digits else pointed digits (digits.length - 1)
    let sign := if 0 < p then "e+" else "e-"
    lead ++ sign ++ digitText (p - 1).natAbs

/-- The text of a number in data files, where only finite numbers have one. -/
def printExponent? (n : Float) : Option String :=
  match magnitude n with
  | .finite x =>
    some <| signText (isNegative n) ++
      if x.mantissa = 0 then "0.0" else (shortest .even x).withExponent
  | _ => none

end LoxLang.Binary64
