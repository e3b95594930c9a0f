import Mathlib.Tactic.SplitIfs
import TreePattern.Text.Quoted

/-!
# Reading quoted text back

The written form of a character can be read off the front of any text that begins with it, and it
never begins with the mark. So the mark behind an escaped text is the first one that is not part of
a written character, and the text between the marks is known.
-/

set_option autoImplicit false

namespace TreePattern.Text

def digitValue (digit : Char) : Nat :=
  if digit.isDigit then digit.toNat - '0'.toNat else digit.toNat - 'a'.toNat + 10

def hexValue (digits : List Char) : Nat :=
  digits.foldl (fun value digit => 16 * value + digitValue digit) 0

/-- The character for which a letter stands behind a backslash: one of the four controls, or the
letter itself. -/
def letterMeaning (letter : Char) : Char :=
  if letter = 'n' then '\n'
  else if letter = 'r' then '\r'
  else if letter = 't' then '\t'
  else if letter = '0' then '\x00'
  else letter

def readEscaped : List Char → Option (Char × List Char)
  | [] => none
  | letter :: rest =>
      if letter = 'u' then
        let digits := rest.tail.takeWhile (· ≠ '\x7d')
        let behind := rest.tail.dropWhile (· ≠ '\x7d')
        some (Char.ofNat (hexValue digits), behind.tail)
      else some (letterMeaning letter, rest)

def readChar : List Char → Option (Char × List Char)
  | [] => none
  | c :: rest => if c = '\\' then readEscaped rest else some (c, rest)

theorem digit_value_digit_char {digit : Nat} (bound : digit < 16) :
    digitValue digit.digitChar = digit := by
  have each : ∀ digit < 16, digitValue digit.digitChar = digit := by decide
  exact each digit bound

theorem hex_value_concat (digits : List Char) (digit : Char) :
    hexValue (digits ++ [digit]) = 16 * hexValue digits + digitValue digit := by
  unfold hexValue
  rw [List.foldl_append]
  rfl

theorem hex_value_to_digits (code : Nat) : hexValue (Nat.toDigits 16 code) = code := by
  induction code using Nat.strongRecOn with
  | ind code induction =>
      by_cases small : code < 16
      · rw [Nat.toDigits_of_lt_base small]
        simp [hexValue, digit_value_digit_char small]
      · have smaller : code / 16 < code := by omega
        have remainder : code % 16 < 16 := Nat.mod_lt code (by decide)
        rw [Nat.toDigits_of_base_le (by decide) (Nat.le_of_not_lt small), hex_value_concat,
          induction (code / 16) smaller, digit_value_digit_char remainder]
        exact Nat.div_add_mod code 16

theorem brace_not_mem_to_digits (code : Nat) : '\x7d' ∉ Nat.toDigits 16 code := by
  induction code using Nat.strongRecOn with
  | ind code induction =>
      by_cases small : code < 16
      · rw [Nat.toDigits_of_lt_base small]
        simp
      · have smaller : code / 16 < code := by omega
        rw [Nat.toDigits_of_base_le (by decide) (Nat.le_of_not_lt small)]
        simp [induction (code / 16) smaller]

theorem read_code_point (c : Char) (rest : List Char) :
    readChar (codePoint c ++ rest) = some (c, rest) := by
  have digits : ∀ digit ∈ Nat.toDigits 16 c.toNat, decide (digit ≠ '\x7d') = true := by
    intro digit member
    rw [decide_eq_true_eq]
    intro isBrace
    exact brace_not_mem_to_digits c.toNat (isBrace ▸ member)
  have whole : codePoint c ++ rest =
      '\\' :: 'u' :: '\x7b' :: (Nat.toDigits 16 c.toNat ++ '\x7d' :: rest) := by
    simp [codePoint]
  rw [whole, readChar, if_pos rfl, readEscaped, if_pos rfl, List.tail_cons,
    List.takeWhile_append_of_pos digits, List.dropWhile_append_of_pos digits]
  simp [hex_value_to_digits, Char.ofNat_toNat]

theorem letter_meaning_control {c letter : Char} (control : controlLetter? c = some letter) :
    letter ≠ 'u' ∧ letterMeaning letter = c := by
  unfold controlLetter? at control
  split_ifs at control with newline carriageReturn tab null
  all_goals
    cases control
    subst c
    exact ⟨by decide, rfl⟩

/-- The written form of a character is read as the character, whatever follows. -/
theorem read_escape_char (c : Char) (rest : List Char) :
    readChar (escapeChar doubleMark c ++ rest) = some (c, rest) := by
  unfold escapeChar
  split
  · rename_i marked
    rcases marked with isMark | isBackslash
    · rw [isMark]
      rfl
    · rw [isBackslash]
      rfl
  · rename_i plain
    split
    · rename_i letter control
      obtain ⟨other, meaning⟩ := letter_meaning_control control
      simp only [List.cons_append, List.nil_append, readChar, readEscaped, if_pos, if_neg other,
        meaning]
    · split
      · exact read_code_point c rest
      · have raw : c ≠ '\\' := fun isBackslash => plain (Or.inr isBackslash)
        rw [List.singleton_append, readChar, if_neg raw]

theorem escape_char_head (c : Char) :
    ∃ head tail, escapeChar doubleMark c = head :: tail ∧ head ≠ doubleMark := by
  unfold escapeChar
  split
  · exact ⟨'\\', [c], rfl, by decide⟩
  · rename_i plain
    split
    · exact ⟨'\\', _, rfl, by decide⟩
    · split
      · exact ⟨'\\', _, rfl, by decide⟩
      · exact ⟨c, [], rfl, fun isMark => plain (Or.inl isMark)⟩

/-- Up to the mark behind it, escaped text is written in one way only. -/
theorem escape_before_mark_inj {first second behind others : List Char}
    (same : escape doubleMark first ++ doubleMark :: behind =
      escape doubleMark second ++ doubleMark :: others) : first = second ∧ behind = others := by
  induction first generalizing second with
  | nil =>
      cases second with
      | nil => exact ⟨rfl, (List.cons.inj same).2⟩
      | cons c rest =>
          obtain ⟨head, tail, written, noMark⟩ := escape_char_head c
          rw [escape_cons, written] at same
          exact absurd (List.cons.inj same).1.symm noMark
  | cons c rest induction =>
      cases second with
      | nil =>
          obtain ⟨head, tail, written, noMark⟩ := escape_char_head c
          rw [escape_cons, written] at same
          exact absurd (List.cons.inj same).1 noMark
      | cons other more =>
          rw [escape_cons, escape_cons, List.append_assoc, List.append_assoc] at same
          have read := congrArg readChar same
          rw [read_escape_char, read_escape_char, Option.some.injEq, Prod.mk.injEq] at read
          obtain ⟨sameChar, sameRest⟩ := read
          obtain ⟨sameText, sameBehind⟩ := induction sameRest
          exact ⟨sameChar ▸ sameText ▸ rfl, sameBehind⟩

theorem to_list_quoted (text : String) :
    (quoted text).toList = doubleMark :: (escape doubleMark text.toList ++ [doubleMark]) :=
  String.toList_ofList

theorem quoted_append_inj {first second : String} {behind others : List Char}
    (same : (quoted first).toList ++ behind = (quoted second).toList ++ others) :
    first = second ∧ behind = others := by
  rw [to_list_quoted, to_list_quoted] at same
  simp only [List.cons_append, List.append_assoc, List.nil_append] at same
  obtain ⟨sameText, sameBehind⟩ := escape_before_mark_inj (List.cons.inj same).2
  exact ⟨String.toList_inj.1 sameText, sameBehind⟩

end TreePattern.Text
