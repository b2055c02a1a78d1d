-- SUMMARY: Short strings: reading them with their escapes, and writing any text as one.
import LuaSource.Lexeme.Scan
import LuaSource.Token
import LuaSource.Text.CharClass

/-!
# Short strings

A short string stands between two quotes of one kind, on one line. A backslash begins an
escape, which stands for one character.
-/

namespace LuaSource.Quoted

-- ---------------------------------------------------------------------------
-- Escapes
-- ---------------------------------------------------------------------------

/-- Letters with a meaning of their own after a backslash. -/
def letters : List (Char × Char) := [
  ('a', '\x07'), ('b', '\x08'), ('f', '\x0c'), ('n', '\n'), ('r', '\r'), ('t', '\t')]

/-- Up to three decimal digits are the number of a character, which must not exceed 255. -/
def readDecimal (cs : List Char) : Scan (Except LexError Char) :=
  let digits := (cs.take 3).takeWhile Char.isDigit
  let n := digitsValue 10 digits
  ⟨digits.length,
    if n ≤ 255 then .ok (Char.ofNat n)
    else .error (.escapeTooLarge (String.ofList ('\\' :: digits)))⟩

/-- Two hexadecimal digits are the number of a character. The message shows what stands in the
place of the missing digit, unless that ends the line. -/
def readHex (cs : List Char) : Scan (Except LexError Char) :=
  let digits := (cs.take 2).takeWhile isHexDigit
  let offender := (cs.drop digits.length).take 1 |>.filter (!isNewline ·)
  ⟨digits.length,
    if digits.length = 2 then .ok (Char.ofNat (digitsValue 16 digits))
    else .error (.hexDigitExpected (String.ofList ('\\' :: 'x' :: (digits ++ offender))))⟩

/-- One escape, from behind its backslash. -/
def readEscape : List Char → Scan (Except LexError Char)
  | [] => ⟨0, .error (.unfinishedString Symbol.eof.spelling)⟩
  | c :: cs =>
    match letters.lookup c with
    | some d => ⟨1, .ok d⟩
    | none =>
      if isNewline c then ⟨newlineSize (c :: cs), .ok '\n'⟩
      else if c = 'x' then (readHex cs).after 1
      else if c.isDigit then readDecimal (c :: cs)
      else ⟨1, .ok c⟩


-- ---------------------------------------------------------------------------
-- Reading
-- ---------------------------------------------------------------------------

/-- Read up to the closing quote. `raw` is the string so far as written, from its opening quote,
and `value` what it stands for, both last character first; `skip` characters more belong to an
escape already read. -/
def readBody (quote : Char) (skip : Nat) (raw value : List Char) :
    List Char → Scan (Except LexError (List Char))
  | [] => ⟨raw.length, .error (.unfinishedString Symbol.eof.spelling)⟩
  | c :: cs =>
    match skip with
    | skip + 1 => readBody quote skip (c :: raw) value cs
    | 0 =>
      if c = quote then ⟨raw.length + 1, .ok value.reverse⟩
      else if isNewline c then
        ⟨raw.length, .error (.unfinishedString (String.ofList raw.reverse))⟩
      else if c = '\\' then
        match readEscape cs with
        | ⟨n, .ok d⟩ => readBody quote n (c :: raw) (d :: value) cs
        | ⟨n, .error e⟩ => ⟨raw.length + 1 + n, .error e⟩
      else readBody quote 0 (c :: raw) (c :: value) cs

/-- A short string, from behind its opening quote. The quote counts for the size. -/
def read (quote : Char) (cs : List Char) : Scan (Except LexError (List Char)) :=
  readBody quote 0 [quote] [] cs


-- ---------------------------------------------------------------------------
-- Writing
-- ---------------------------------------------------------------------------

/-- Three decimal digits. -/
def threeDigits (n : Nat) : List Char :=
  [Nat.digitChar (n / 100 % 10), Nat.digitChar (n / 10 % 10), Nat.digitChar (n % 10)]

/-- A character as it stands between double quotes: quotes, backslashes and the control
characters of ASCII are escaped. -/
def encodeChar (c : Char) : List Char :=
  if c = '"' ∨ c = '\\' then ['\\', c]
  else
    match letters.find? (·.2 == c) with
    | some (letter, _) => ['\\', letter]
    | none => if c.toNat < 32 ∨ c.toNat = 127 then '\\' :: threeDigits c.toNat else [c]

/-- A text as a short string in double quotes. -/
def encode (cs : List Char) : List Char := '"' :: (cs.flatMap encodeChar ++ ['"'])

end LuaSource.Quoted
