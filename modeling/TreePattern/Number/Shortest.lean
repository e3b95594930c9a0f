import TreePattern.Number.Binary64

/-!
# The shortest decimal of a number

A finite number is written with the fewest decimal digits that read back as the same number; of
several such decimals the nearest one is taken, and of two equally near ones the larger. The plain
form writes them without an exponent, however long that makes it. The marked form always shows that
the number is no integer literal: it has a point or an exponent.
-/

set_option autoImplicit false

namespace TreePattern

structure Decimal where
  digits : Nat
  exponent : Int
  deriving DecidableEq, Repr

namespace Decimal

def strip : Nat → Decimal → Decimal
  | 0, decimal => decimal
  | count + 1, decimal =>
      if decimal.digits % 10 = 0 ∧ decimal.digits ≠ 0 then
        strip count ⟨decimal.digits / 10, decimal.exponent + 1⟩
      else decimal

def positional (decimal : Decimal) : String :=
  let digits := Nat.toDigits 10 decimal.digits
  if 0 ≤ decimal.exponent then
    String.ofList (digits ++ List.replicate decimal.exponent.toNat '0')
  else
    let places := (-decimal.exponent).toNat
    let padded := List.replicate (places + 1 - digits.length) '0' ++ digits
    let whole := padded.length - places
    String.ofList (padded.take whole ++ ['.'] ++ padded.drop whole)

def scientific (decimal : Decimal) : String :=
  let digits := Nat.toDigits 10 decimal.digits
  let mantissa := match digits with
    | first :: second :: rest => first :: '.' :: second :: rest
    | short => short
  let exponent := decimal.exponent + (digits.length - 1 : Nat)
  String.ofList mantissa ++ "e" ++ toString exponent

end Decimal

namespace Binary64

def fractionOf (code : Nat) : Nat × Nat :=
  let (units, exponent) := magnitude code
  (units * Nat.pow 2 exponent.toNat, Nat.pow 2 (-exponent).toNat)

/-- The decimals next to a fraction on the grid of multiples of `10 ^ exponent`, below and above,
and whether the upper one is at least as near. -/
def gridNeighbours (fraction : Nat × Nat) (exponent : Int) : Decimal × Decimal × Bool :=
  let numerator := fraction.1 * Nat.pow 10 (-exponent).toNat
  let denominator := fraction.2 * Nat.pow 10 exponent.toNat
  let below := numerator / denominator
  (⟨below, exponent⟩, ⟨below + 1, exponent⟩, 2 * (numerator % denominator) ≥ denominator)

def onGrid? (code : Nat) (exponent : Int) : Option Decimal :=
  let (below, above, aboveNearer) := gridNeighbours (fractionOf code) exponent
  let readsBack (decimal : Decimal) : Bool :=
    decimalCode decimal.digits decimal.exponent == code
  match readsBack below, readsBack above with
  | true, true => some (if aboveNearer then above else below)
  | true, false => some below
  | false, true => some above
  | false, false => none

/-- The exponent of the power of ten just above the value of a code: the value has that many digits
in front of the point. -/
def decimalTop (code : Nat) : Int :=
  let fraction := fractionOf code
  let whole := fraction.1 / fraction.2
  if whole ≠ 0 then (Nat.toDigits 10 whole).length
  else 1 - (Nat.toDigits 10 (fraction.2 / fraction.1)).length

/-- The coarsest grid with a decimal that reads back. Seventeen digits always suffice; one more
grid covers a value whose first digit is one place lower than its top says. -/
def shortestDecimal (code : Nat) : Decimal :=
  if code = 0 then ⟨0, 0⟩
  else
    let top := decimalTop code
    let found := (List.range 19).findSome? fun (count : Nat) => onGrid? code (top - count)
    Decimal.strip 20 (found.getD ⟨0, 0⟩)

def signText (negative : Bool) : String := if negative then "-" else ""

def plainText : Binary64 → String
  | .nan => "NaN"
  | .infinite negative => signText negative ++ "inf"
  | .finite negative code => signText negative ++ (shortestDecimal code).positional

def needsExponent (code : Nat) : Bool :=
  code ≠ 0 && (code < decimalCode 1 (-4) || decimalCode 1 16 ≤ code)

/-- The marked form: a fraction of zero is written out, and very small and very large numbers have
an exponent. -/
def markedText : Binary64 → String
  | .finite negative code =>
      let decimal := shortestDecimal code
      signText negative ++
        if needsExponent code then decimal.scientific
        else if 0 ≤ decimal.exponent then decimal.positional ++ ".0"
        else decimal.positional
  | special => special.plainText

end Binary64

end TreePattern
