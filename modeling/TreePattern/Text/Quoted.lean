import TreePattern.Text.Unprintable

/-!
# Quoted text

A text or a single character between marks, such that the result shows every character: the mark
itself and the backslash are escaped, four controls have a letter of their own, and what has no
safe printed form is written as its code point in hexadecimal.
-/

set_option autoImplicit false

namespace TreePattern.Text

def doubleMark : Char := '"'

def singleMark : Char := '\x27'

def controlLetter? (c : Char) : Option Char :=
  if c = '\n' then some 'n'
  else if c = '\r' then some 'r'
  else if c = '\t' then some 't'
  else if c = '\x00' then some '0'
  else none

def codePoint (c : Char) : List Char :=
  ['\\', 'u', '\x7b'] ++ Nat.toDigits 16 c.toNat ++ ['\x7d']

/-- The written form of one character inside `mark`. The other kind of mark needs no escape. -/
def escapeChar (mark c : Char) : List Char :=
  if c = mark ∨ c = '\\' then ['\\', c]
  else match controlLetter? c with
    | some letter => ['\\', letter]
    | none => if isUnprintable c then codePoint c else [c]

def escape (mark : Char) (chars : List Char) : List Char :=
  chars.flatMap (escapeChar mark)

@[simp] theorem escape_cons (mark c : Char) (rest : List Char) :
    escape mark (c :: rest) = escapeChar mark c ++ escape mark rest := rfl

def between (mark : Char) (chars : List Char) : String :=
  String.ofList (mark :: (escape mark chars ++ [mark]))

def quoted (text : String) : String := between doubleMark text.toList

def quotedChar (c : Char) : String := between singleMark [c]

end TreePattern.Text
