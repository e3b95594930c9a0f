/-!
# Lexemes of TOML

Blanks, comments, line ends, strings and keys. A reader takes the characters that are left and
answers what it read together with the rest, or nothing if the text is not as it must be.
-/

set_option autoImplicit false

namespace TreePattern.Toml

abbrev Reading (α : Type) := Option (α × List Char)

def isBlank (c : Char) : Bool := c = ' ' || c = '\t'

def skipBlank (input : List Char) : List Char := input.dropWhile isBlank

/-- The characters that may stand in comments and strings as themselves: all but the controls, of
which only the tab is allowed. -/
def isVisible (c : Char) : Bool := c = '\t' || (0x20 ≤ c.toNat && c.toNat ≠ 0x7f)

def newline? : List Char → Option (List Char)
  | '\n' :: rest => some rest
  | '\r' :: '\n' :: rest => some rest
  | _ => none

def lineEnd? : List Char → Option (List Char)
  | [] => some []
  | input => newline? input

def skipComment : List Char → List Char
  | '#' :: rest => rest.dropWhile isVisible
  | input => input

def lineRest? (input : List Char) : Option (List Char) :=
  lineEnd? (skipComment (skipBlank input))

def skipGaps : Nat → List Char → List Char
  | 0, input => input
  | count + 1, input =>
      match newline? (skipComment (skipBlank input)) with
      | some rest => skipGaps count rest
      | none => skipBlank input

/-! ## Strings -/

def hexDigit? (c : Char) : Option Nat :=
  if c.isDigit then some (c.toNat - '0'.toNat)
  else if 'a' ≤ c ∧ c ≤ 'f' then some (c.toNat - 'a'.toNat + 10)
  else if 'A' ≤ c ∧ c ≤ 'F' then some (c.toNat - 'A'.toNat + 10)
  else none

def readHex : Nat → Nat → List Char → Reading Nat
  | 0, value, input => some (value, input)
  | _ + 1, _, [] => none
  | count + 1, value, c :: rest =>
      (hexDigit? c).bind fun digit => readHex count (16 * value + digit) rest

def readCodePoint (count : Nat) (input : List Char) : Reading Char :=
  (readHex count 0 input).bind fun (code, rest) =>
    if code.isValidChar then some (Char.ofNat code, rest) else none

def readEscape : List Char → Reading Char
  | 'b' :: rest => some ('\x08', rest)
  | 't' :: rest => some ('\t', rest)
  | 'n' :: rest => some ('\n', rest)
  | 'f' :: rest => some ('\x0c', rest)
  | 'r' :: rest => some ('\r', rest)
  | '"' :: rest => some ('"', rest)
  | '\\' :: rest => some ('\\', rest)
  | 'u' :: rest => readCodePoint 4 rest
  | 'U' :: rest => readCodePoint 8 rest
  | _ => none

def isApostrophe (c : Char) : Bool := c = '\x27'

def prepend (c : Char) (read : Reading (List Char)) : Reading (List Char) :=
  read.map fun (chars, rest) => (c :: chars, rest)

def readBasic : Nat → List Char → Reading (List Char)
  | 0, _ => none
  | _ + 1, [] => none
  | count + 1, c :: rest =>
      if c = '"' then some ([], rest)
      else if c = '\\' then
        (readEscape rest).bind fun (escaped, after) => prepend escaped (readBasic count after)
      else if isVisible c then prepend c (readBasic count rest)
      else none

def readLiteral (input : List Char) : Reading (List Char) :=
  match input.dropWhile fun c => isVisible c && !isApostrophe c with
  | mark :: rest =>
      if isApostrophe mark then
        some (input.takeWhile fun c => isVisible c && !isApostrophe c, rest)
      else none
  | [] => none

/-- A run of marks inside or at the end of a string of several lines. Three close the string; one or
two more in front of them belong to it, and so do runs of fewer than three. -/
def closingMarks? (run : Nat) : Option Nat :=
  if run < 3 then none else some (min run 5 - 3)

def skipBlankLines : Nat → List Char → List Char
  | 0, input => input
  | count + 1, input =>
      match newline? (skipBlank input) with
      | some rest => skipBlankLines count rest
      | none => skipBlank input

/-- A backslash at the end of a line removes it, with all blanks and newlines that follow. -/
def lineContinuation? (input : List Char) : Option (List Char) :=
  (newline? (skipBlank input)).map fun rest => skipBlankLines rest.length rest

def readLongBasic : Nat → List Char → Reading (List Char)
  | 0, _ => none
  | _ + 1, [] => none
  | count + 1, c :: rest =>
      if c = '"' then
        let run := (c :: rest).takeWhile (· = '"')
        match closingMarks? run.length with
        | some inner => some (List.replicate inner '"', (c :: rest).drop (inner + 3))
        | none => prepend c (readLongBasic count rest)
      else if c = '\\' then
        match lineContinuation? rest with
        | some after => readLongBasic count after
        | none =>
            (readEscape rest).bind fun (escaped, after) =>
              prepend escaped (readLongBasic count after)
      else if isVisible c then prepend c (readLongBasic count rest)
      else (newline? (c :: rest)).bind fun after => prepend '\n' (readLongBasic count after)

def readLongLiteral : Nat → List Char → Reading (List Char)
  | 0, _ => none
  | _ + 1, [] => none
  | count + 1, c :: rest =>
      if isApostrophe c then
        let run := (c :: rest).takeWhile isApostrophe
        match closingMarks? run.length with
        | some inner => some (List.replicate inner c, (c :: rest).drop (inner + 3))
        | none => prepend c (readLongLiteral count rest)
      else if isVisible c then prepend c (readLongLiteral count rest)
      else (newline? (c :: rest)).bind fun after => prepend '\n' (readLongLiteral count after)

/-- A newline right after the opening marks of a string of several lines is no part of it. -/
def skipFirstNewline (input : List Char) : List Char := (newline? input).getD input

def readString (input : List Char) : Reading (List Char) :=
  match input with
  | '"' :: '"' :: '"' :: rest => readLongBasic (rest.length + 1) (skipFirstNewline rest)
  | '"' :: rest => readBasic (rest.length + 1) rest
  | '\x27' :: '\x27' :: '\x27' :: rest => readLongLiteral (rest.length + 1) (skipFirstNewline rest)
  | '\x27' :: rest => readLiteral rest
  | _ => none

/-! ## Keys -/

def isBareKeyChar (c : Char) : Bool := c.isAlphanum || c = '_' || c = '-'

def readKeyPart (input : List Char) : Reading String :=
  match input with
  | '"' :: rest => (readBasic (rest.length + 1) rest).map fun (chars, after) =>
      (String.ofList chars, after)
  | '\x27' :: rest => (readLiteral rest).map fun (chars, after) => (String.ofList chars, after)
  | _ =>
      let part := input.takeWhile isBareKeyChar
      if part.isEmpty then none
      else some (String.ofList part, input.dropWhile isBareKeyChar)

/-- At most `count` parts joined by points, with blanks around them. -/
def readKeyParts : Nat → List Char → Reading (List String)
  | 0, _ => none
  | count + 1, input =>
      (readKeyPart (skipBlank input)).bind fun (part, after) =>
        match skipBlank after with
        | '.' :: rest => (readKeyParts count rest).map fun (parts, final) => (part :: parts, final)
        | rest => some ([part], rest)

/-- Keys have fewer parts than this, and values are nested less deep. -/
def depthLimit : Nat := 80

def readKey (input : List Char) : Reading (List String) := readKeyParts (depthLimit - 1) input

end TreePattern.Toml
