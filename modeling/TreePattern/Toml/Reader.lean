import TreePattern.Toml.Document
import TreePattern.Toml.Scalar

/-!
# Reading TOML documents

Values with parts, statements and whole documents. Text that is not a document in all its parts is
refused as a whole.
-/

set_option autoImplicit false

namespace TreePattern.Toml

mutual

/-- A value, in which arrays and inline tables are nested at most `depth` levels deep. -/
def readValue : Nat → Nat → List Char → Reading Value
  | 0, _, _ => none
  | count + 1, depth, input =>
      match input with
      | '[' :: rest =>
          if depth = 0 then none
          else (readItems count (depth - 1) rest).map fun (items, after) => (.array items, after)
      | '\x7b' :: rest =>
          if depth = 0 then none
          else
            match skipBlank rest with
            | '\x7d' :: after => some (.table [], after)
            | inside =>
                (readPairs count (depth - 1) inside).bind fun (pairs, after) =>
                  (assembleInline pairs).map fun table => (table, after)
      | '"' :: _ => (readString input).map fun (chars, rest) => (.text (String.ofList chars), rest)
      | '\x27' :: _ =>
          (readString input).map fun (chars, rest) => (.text (String.ofList chars), rest)
      | _ => readScalar input

/-- The rest of an array, from the place of an item on. A comma may follow the last item. -/
def readItems : Nat → Nat → List Char → Reading (List Value)
  | 0, _, _ => none
  | count + 1, depth, input =>
      match skipGaps input.length input with
      | ']' :: rest => some ([], rest)
      | atItem =>
          (readValue count depth atItem).bind fun (item, after) =>
            match skipGaps after.length after with
            | ',' :: rest =>
                (readItems count depth rest).map fun (items, final) => (item :: items, final)
            | ']' :: rest => some ([item], rest)
            | _ => none

/-- The rest of an inline table, from the place of a key on. No comma may follow the last pair. -/
def readPairs : Nat → Nat → List Char → Reading (List (List String × Value))
  | 0, _, _ => none
  | count + 1, depth, input =>
      (readKey input).bind fun (parts, afterKey) =>
        (expect? '=' afterKey).bind fun atValue =>
          (readValue count depth (skipBlank atValue)).bind fun (value, after) =>
            match skipBlank after with
            | ',' :: rest =>
                (readPairs count depth rest).map fun (pairs, final) =>
                  ((parts, value) :: pairs, final)
            | '\x7d' :: rest => some ([(parts, value)], rest)
            | _ => none

end

def readHeader (input : List Char) : Reading Statement :=
  match input with
  | '[' :: rest =>
      (readKey rest).bind fun (parts, after) =>
        match after with
        | ']' :: ']' :: final => some (.element parts, final)
        | _ => none
  | _ =>
      (readKey input).bind fun (parts, after) =>
        (expect? ']' after).map fun final => (.table parts, final)

def readAssignment (input : List Char) : Reading Statement :=
  (readKey input).bind fun (parts, afterKey) =>
    (expect? '=' afterKey).bind fun atValue =>
      (readValue (2 * input.length + 2) (depthLimit - 1) (skipBlank atValue)).map
        fun (value, rest) => (.assignment parts value, rest)

/-- The statements of at most `count` lines. A line holds one statement at most. -/
def readLines : Nat → List Char → Option (List Statement)
  | 0, input => if input.isEmpty then some [] else none
  | count + 1, input =>
      match skipBlank input with
      | [] => some []
      | '#' :: _ => (lineRest? input).bind (readLines count)
      | '\n' :: _ => (lineRest? input).bind (readLines count)
      | '\r' :: _ => (lineRest? input).bind (readLines count)
      | line =>
          let statement := match line with
            | '[' :: rest => readHeader rest
            | _ => readAssignment line
          statement.bind fun (first, after) =>
            (lineRest? after).bind fun rest =>
              (readLines count rest).map fun others => first :: others

def skipByteOrderMark : List Char → List Char
  | '\ufeff' :: rest => rest
  | input => input

def parse (document : String) : Option (List (String × Value)) :=
  let input := skipByteOrderMark document.toList
  (readLines (input.length + 1) input).bind assemble

end TreePattern.Toml
