import TreePattern.Toml.Lexeme
import TreePattern.Toml.Value

/-!
# Numbers, dates and times of TOML

Whole numbers fit in 64 bits with a sign and may be hexadecimal, octal or binary; underscores stand
between digits only. A float is a whole number with a fraction or an exponent. Dates must be in the
calendar.
-/

set_option autoImplicit false

namespace TreePattern.Toml

/-- At least one digit, with single underscores between digits; the underscores are left out. -/
def readDigits (isDigit : Char → Bool) : List Char → Reading (List Char)
  | [] => none
  | [c] => if isDigit c then some ([c], []) else none
  | c :: next :: rest =>
      if !isDigit c then none
      else if isDigit next then
        (readDigits isDigit (next :: rest)).map fun (digits, after) => (c :: digits, after)
      else if next = '_' then
        (readDigits isDigit rest).map fun (digits, after) => (c :: digits, after)
      else some ([c], next :: rest)

def readSign : List Char → List Char × List Char
  | '+' :: rest => (['+'], rest)
  | '-' :: rest => (['-'], rest)
  | rest => ([], rest)

/-- A decimal whole number: a zero alone, or digits that do not begin with zero. -/
def readWhole (input : List Char) : Reading (List Char) :=
  match input with
  | '0' :: rest => some (['0'], rest)
  | _ => readDigits Char.isDigit input

def leastInteger : Int := -0x8000000000000000

def greatestInteger : Int := 0x7fffffffffffffff

def checkInteger (number : Int) : Option Value :=
  if leastInteger ≤ number ∧ number ≤ greatestInteger then some (.integer number) else none

def valueIn (base : Nat) (digits : List Char) : Nat :=
  digits.foldl (fun value digit => base * value + (hexDigit? digit).getD 0) 0

def readBased (base : Nat) (input : List Char) : Reading Value :=
  let isDigit (c : Char) : Bool :=
    match hexDigit? c with
    | some digit => digit < base
    | none => false
  (readDigits isDigit input).bind fun (digits, rest) =>
    (checkInteger (valueIn base digits)).map fun value => (value, rest)

def readInteger (input : List Char) : Reading Value :=
  match input with
  | '0' :: 'x' :: rest => readBased 16 rest
  | '0' :: 'o' :: rest => readBased 8 rest
  | '0' :: 'b' :: rest => readBased 2 rest
  | _ =>
      let (sign, unsigned) := readSign input
      (readWhole unsigned).bind fun (digits, rest) =>
        let size : Int := valueIn 10 digits
        (checkInteger (if sign = ['-'] then -size else size)).map fun value => (value, rest)

def readFraction : List Char → Reading (List Char)
  | '.' :: rest => (readDigits Char.isDigit rest).map fun (digits, after) => ('.' :: digits, after)
  | _ => none

def readExponent : List Char → Reading (List Char)
  | mark :: rest =>
      if mark = 'e' ∨ mark = 'E' then
        let (sign, unsigned) := readSign rest
        (readDigits Char.isDigit unsigned).map fun (digits, after) =>
          ('e' :: (sign ++ digits), after)
      else none
  | [] => none

def readFloatTail (input : List Char) : Reading (List Char) :=
  match readFraction input with
  | some (fraction, after) =>
      match readExponent after with
      | some (exponent, rest) => some (fraction ++ exponent, rest)
      | none => some (fraction, after)
  | none => readExponent input

/-- A decimal may round to minus infinity, but not to infinity. -/
def checkFloat (written : List Char) : Option Value :=
  match Binary64.ofText? (String.ofList written) with
  | some (.infinite false) => none
  | some number => some (.float number)
  | none => none

def readSpecial (sign : List Char) : List Char → Reading Value
  | 'i' :: 'n' :: 'f' :: rest => some (.float (.infinite (sign = ['-'])), rest)
  | 'n' :: 'a' :: 'n' :: rest => some (.float .nan, rest)
  | _ => none

def readFloat (input : List Char) : Reading Value :=
  let (sign, unsigned) := readSign input
  match readWhole unsigned with
  | some (whole, after) =>
      (readFloatTail after).bind fun (tail, rest) =>
        (checkFloat (sign ++ whole ++ tail)).map fun value => (value, rest)
  | none => readSpecial sign unsigned

/-! ## Dates and times -/

def readField (count : Nat) (input : List Char) : Reading Nat :=
  let digits := input.take count
  if digits.length = count ∧ digits.all Char.isDigit then
    some (valueIn 10 digits, input.drop count)
  else none

def readBounded (least greatest : Nat) (input : List Char) : Reading Nat :=
  (readField 2 input).bind fun (value, rest) =>
    if least ≤ value ∧ value ≤ greatest then some (value, rest) else none

def isLeapYear (year : Nat) : Bool :=
  year % 4 = 0 && (year % 100 ≠ 0 || year % 400 = 0)

def daysIn (year month : Nat) : Nat :=
  if month = 2 then (if isLeapYear year then 29 else 28)
  else if month = 4 ∨ month = 6 ∨ month = 9 ∨ month = 11 then 30
  else 31

def expect? (c : Char) : List Char → Option (List Char)
  | first :: rest => if first = c then some rest else none
  | [] => none

def date? (input : List Char) : Option (List Char) :=
  (readField 4 input).bind fun (year, afterYear) =>
    (expect? '-' afterYear).bind fun atMonth =>
      (readBounded 1 12 atMonth).bind fun (month, afterMonth) =>
        (expect? '-' afterMonth).bind fun atDay =>
          (readBounded 1 (daysIn year month) atDay).map (·.2)

def skipSecondFraction : List Char → List Char
  | '.' :: rest =>
      if (rest.takeWhile Char.isDigit).isEmpty then '.' :: rest else rest.dropWhile Char.isDigit
  | input => input

/-- The rest after hours, minutes and seconds. A minute may have a leap second. -/
def time? (input : List Char) : Option (List Char) :=
  (readBounded 0 23 input).bind fun (_, afterHour) =>
    (expect? ':' afterHour).bind fun atMinute =>
      (readBounded 0 59 atMinute).bind fun (_, afterMinute) =>
        (expect? ':' afterMinute).bind fun atSecond =>
          (readBounded 0 60 atSecond).map fun (_, rest) => skipSecondFraction rest

def offset? : List Char → Option (List Char)
  | 'Z' :: rest => some rest
  | 'z' :: rest => some rest
  | sign :: rest =>
      if sign = '+' ∨ sign = '-' then
        (readBounded 0 23 rest).bind fun (_, afterHour) =>
          (expect? ':' afterHour).bind fun atMinute => (readBounded 0 59 atMinute).map (·.2)
      else none
  | [] => none

def timeOfDay? : List Char → Option (List Char)
  | mark :: rest =>
      if mark = 'T' ∨ mark = 't' ∨ mark = ' ' then
        (time? rest).map fun after => (offset? after).getD after
      else none
  | [] => none

def readMoment (input : List Char) : Reading Value :=
  let rest? := match date? input with
    | some after => some ((timeOfDay? after).getD after)
    | none => time? input
  rest?.map fun rest =>
    (.moment (String.ofList (input.take (input.length - rest.length))), rest)

def readBoolean : List Char → Reading Value
  | 't' :: 'r' :: 'u' :: 'e' :: rest => some (.boolean true, rest)
  | 'f' :: 'a' :: 'l' :: 's' :: 'e' :: rest => some (.boolean false, rest)
  | _ => none

def readScalar (input : List Char) : Reading Value :=
  (readBoolean input).or ((readMoment input).or ((readFloat input).or (readInteger input)))

end TreePattern.Toml
