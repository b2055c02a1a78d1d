-- SUMMARY: The classes of characters that lexemes are made of, and the three ways of ending a line.
import LuaSource.Text.Unicode

/-!
# Character classes

Names are written in the alphabets and digits of all scripts. Blanks and the digits of
numerals are ASCII. A line ends with `\n`, `\r` or `\r\n`. Where a text becomes a value, each
of the three stands for one `\n`.
-/

namespace LuaSource

/-- Space, tab, vertical tab, form feed and the two newline characters. -/
def isBlank (c : Char) : Bool :=
  c == ' ' || c == '\t' || c == '\x0b' || c == '\x0c' || c == '\r' || c == '\n'

def isNameStart (c : Char) : Bool := c == '_' || isAlphabetic c

def isNameContinue (c : Char) : Bool := c == '_' || isAlphabetic c || isNumeric c

theorem isNameContinue_of_isNameStart {c : Char} (h : isNameStart c = true) :
    isNameContinue c = true := by
  simp_all [isNameStart, isNameContinue]


-- ---------------------------------------------------------------------------
-- Digits
-- ---------------------------------------------------------------------------

/-- What a digit counts, in a base up to sixteen. -/
def digitValue (c : Char) : Nat :=
  if c.isDigit then c.toNat - '0'.toNat
  else if 'a' ≤ c ∧ c ≤ 'f' then c.toNat - 'a'.toNat + 10
  else c.toNat - 'A'.toNat + 10

def isHexDigit (c : Char) : Bool :=
  c.isDigit || (decide ('a' ≤ c) && decide (c ≤ 'f')) || (decide ('A' ≤ c) && decide (c ≤ 'F'))

theorem isHexDigit_of_isDigit {c : Char} (h : c.isDigit = true) : isHexDigit c = true := by
  simp [isHexDigit, h]

/-- The number that a list of digits writes in a base, the first digit counting most. -/
def digitsValue (base : Nat) (digits : List Char) : Nat :=
  digits.foldl (fun n c => n * base + digitValue c) 0

@[simp] theorem digitsValue_nil (base : Nat) : digitsValue base [] = 0 := rfl

theorem digitsValue_concat (base : Nat) (digits : List Char) (c : Char) :
    digitsValue base (digits ++ [c]) = digitsValue base digits * base + digitValue c := by
  simp [digitsValue]


-- ---------------------------------------------------------------------------
-- Newlines
-- ---------------------------------------------------------------------------

def isNewline (c : Char) : Bool := c == '\n' || c == '\r'

/-- How many characters the newline at the head of a text takes up; none if there is no newline. -/
def newlineSize : List Char → Nat
  | [] => 0
  | c :: cs =>
    if c = '\n' then 1
    else if c = '\r' then if cs.head? = some '\n' then 2 else 1
    else 0

/-- The text with a `\n` for each newline. -/
def unifyNewlines : List Char → List Char
  | [] => []
  | c :: cs =>
    if c = '\r' then
      if cs.head? = some '\n' then unifyNewlines cs else '\n' :: unifyNewlines cs
    else c :: unifyNewlines cs

theorem newlineSize_eq_zero_iff (c : Char) (cs : List Char) :
    newlineSize (c :: cs) = 0 ↔ isNewline c = false := by
  unfold newlineSize isNewline
  grind

theorem unifyNewlines_of_no_return {cs : List Char} (h : '\r' ∉ cs) : unifyNewlines cs = cs := by
  induction cs with
  | nil => rfl
  | cons c cs ih =>
    have hc : c ≠ '\r' := fun hc => h (by simp [hc])
    simp [unifyNewlines, hc, ih (fun hm => h (by simp [hm]))]

end LuaSource
