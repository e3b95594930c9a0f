/-!
# Binary floating point numbers

Numbers of 64 bits as a value: not-a-number, the infinities, and the finite numbers, each given by
its sign and the code of its magnitude. The code is the exponent and fraction fields read as one
number, so that larger magnitudes have larger codes and neighbours have neighbouring codes.
Everything is exact arithmetic on natural numbers.
-/

set_option autoImplicit false

namespace TreePattern

def fractionCount : Nat := 0x10000000000000

def infinityCode : Nat := 2047 * fractionCount

inductive Binary64 where
  | nan
  | infinite (negative : Bool)
  | finite (negative : Bool) (code : Fin infinityCode)
  deriving Repr

namespace Binary64

/-- Equality of values: not-a-number differs from everything, itself included, and the two zeros
are equal. -/
def sameValue : Binary64 → Binary64 → Bool
  | .infinite left, .infinite right => left == right
  | .finite negative code, .finite negative' code' =>
      (code.val == 0 && code'.val == 0) || (negative == negative' && code == code')
  | _, _ => false

instance : BEq Binary64 := ⟨sameValue⟩

theorem beq_symm {left right : Binary64} (same : (left == right) = true) :
    (right == left) = true := by
  cases left <;> cases right <;> simp_all [BEq.beq, sameValue]
  grind

theorem beq_trans {left middle right : Binary64} (first : (left == middle) = true)
    (second : (middle == right) = true) : (left == right) = true := by
  cases left <;> cases middle <;> cases right <;> simp_all [BEq.beq, sameValue]
  grind

theorem beq_self_iff (number : Binary64) : (number == number) = true ↔ number ≠ .nan := by
  cases number <;> simp [BEq.beq, sameValue]

/-- The quotient rounded to the nearest number, a half to the even neighbour. -/
def roundQuotient (numerator denominator : Nat) : Nat :=
  let quotient := numerator / denominator
  let remainder := numerator % denominator
  if 2 * remainder > denominator ∨ (2 * remainder = denominator ∧ quotient % 2 = 1)
  then quotient + 1
  else quotient

def scaleDown (numerator denominator : Nat) (exponent : Int) : Nat × Nat :=
  (numerator * Nat.pow 2 (-exponent).toNat, denominator * Nat.pow 2 exponent.toNat)

/-- The code of the magnitude nearest to `numerator / denominator`, a half to the even code. The
unit of the result is chosen such that the rounded count of units has 53 binary digits, but it is
never below the least positive magnitude. A code past every finite one stands for infinity. -/
def nearestCode (numerator denominator : Nat) : Nat :=
  if numerator = 0 then 0
  else
    let guess := max ((numerator.log2 : Int) - denominator.log2 - 53) (-1074)
    let coarse := scaleDown numerator denominator guess
    let exponent := if coarse.1 / coarse.2 ≥ 2 * fractionCount then guess + 1 else guess
    let exact := scaleDown numerator denominator exponent
    (exponent + 1074).toNat * fractionCount + roundQuotient exact.1 exact.2

/-- A decimal far outside the range rounds to zero or to infinity whatever its digits are, so no
power of ten larger than these bounds is computed. -/
def decimalCode (digits : Nat) (exponent : Int) : Nat :=
  let top : Int := (Nat.toDigits 10 digits).length + exponent
  if digits = 0 ∨ top < -400 then 0
  else if top > 400 then infinityCode
  else nearestCode (digits * Nat.pow 10 exponent.toNat) (Nat.pow 10 (-exponent).toNat)

def ofDecimal (negative : Bool) (digits : Nat) (exponent : Int) : Binary64 :=
  let code := decimalCode digits exponent
  if bound : code < infinityCode then .finite negative ⟨code, bound⟩ else .infinite negative

/-- The magnitude as a whole number of units and the exponent of the unit, a power of two. -/
def magnitude (code : Nat) : Nat × Int :=
  if code < fractionCount then (code, -1074)
  else (fractionCount + code % fractionCount, (code / fractionCount : Nat) - 1075)

/-! ## Reading -/

def digitsValue (start : Nat) (digits : List Char) : Nat :=
  digits.foldl (fun value digit => 10 * value + (digit.toNat - '0'.toNat)) start

def splitSign : List Char → Bool × List Char
  | '-' :: rest => (true, rest)
  | '+' :: rest => (false, rest)
  | rest => (false, rest)

def readExponent? : List Char → Option Int
  | [] => some 0
  | mark :: rest =>
      let (negative, digits) := splitSign rest
      if (mark = 'e' ∨ mark = 'E') ∧ digits ≠ [] ∧ digits.all Char.isDigit then
        let size : Int := digitsValue 0 digits
        some (if negative then -size else size)
      else none

def readDecimal? (negative : Bool) (text : List Char) : Option Binary64 :=
  let whole := text.takeWhile Char.isDigit
  let afterWhole := text.dropWhile Char.isDigit
  let (fraction, afterFraction) := match afterWhole with
    | '.' :: rest => (rest.takeWhile Char.isDigit, rest.dropWhile Char.isDigit)
    | rest => ([], rest)
  if whole.isEmpty && fraction.isEmpty then none
  else (readExponent? afterFraction).map fun exponent =>
    ofDecimal negative (digitsValue 0 (whole ++ fraction)) (exponent - fraction.length)

def ofText? (text : String) : Option Binary64 :=
  let (negative, body) := splitSign text.toList
  let name := body.map Char.toLower
  if name = "nan".toList then some .nan
  else if name = "inf".toList ∨ name = "infinity".toList then some (.infinite negative)
  else readDecimal? negative body

end Binary64

end TreePattern
