-- SUMMARY: Reading over blanks and comments, and reading the lexeme behind them.
import LuaSource.Lexeme.LongBracket
import LuaSource.Lexeme.Quoted
import LuaSource.Numeral
import LuaSource.Token

/-!
# Lexemes in a text

Blanks and comments stand between lexemes. A comment begins with `--`. It is a long bracket if one
opens right there, and otherwise reaches to the end of the line.

The first character behind them decides which kind of lexeme comes, and each kind reaches as far as
it can.
-/

namespace LuaSource

-- ---------------------------------------------------------------------------
-- Blanks and comments
-- ---------------------------------------------------------------------------

namespace Trivia

/-- How many characters a comment takes up from behind its `--`; none if it never ends. -/
def commentSize? (cs : List Char) : Option Nat :=
  match LongBracket.opened? cs with
  | some level =>
    (LongBracket.read? level (cs.drop (level + 2))).map fun s => level + 2 + s.size
  | none => some (cs.takeWhile (!isNewline ·)).length

/-- Read over blanks and comments, `n` characters of them already passed and the next `skip`
known to be part of a comment. -/
def readFrom (skip n : Nat) : List Char → Scan (Except LexError Unit)
  | [] => ⟨n, .ok ()⟩
  | c :: cs =>
    match skip with
    | skip + 1 => readFrom skip (n + 1) cs
    | 0 =>
      if isBlank c then readFrom 0 (n + 1) cs
      else if c = '-' ∧ cs.head? = some '-' then
        match commentSize? cs.tail with
        | some k => readFrom (k + 1) (n + 1) cs
        | none => ⟨n + 1 + cs.length, .error .unfinishedLongComment⟩
      else ⟨n, .ok ()⟩

/-- Read over all blanks and comments at the head of a text. -/
def read (cs : List Char) : Scan (Except LexError Unit) := readFrom 0 0 cs

end Trivia


-- ---------------------------------------------------------------------------
-- Lexemes
-- ---------------------------------------------------------------------------

namespace Lexeme

/-- A word is a keyword or else a name. -/
def ofWord (word : String) : Lexeme :=
  match Symbol.keyword? word with
  | some keyword => { symbol := keyword }
  | none => { symbol := .name, value := word }

def readWord (cs : List Char) : Scan Lexeme :=
  let word := cs.takeWhile isNameContinue
  ⟨word.length, ofWord (String.ofList word)⟩

def readNumeral (cs : List Char) : Scan Lexeme :=
  let n := Numeral.size cs
  ⟨n, { symbol := .number, value := String.ofList (cs.take n) }⟩

/-- A short string, from its opening quote. -/
def readQuoted (quote : Char) (cs : List Char) : Scan (Except LexError Lexeme) :=
  (Quoted.read quote cs).map fun r => r.map fun value =>
    { symbol := .string, value := String.ofList value }

/-- A text that begins with `[`: a long string, or else the bracket alone, which no `=` may
follow. -/
def readBracket (cs : List Char) : Scan (Except LexError Lexeme) :=
  match LongBracket.opened? cs with
  | some level =>
    match LongBracket.read? level (cs.drop (level + 2)) with
    | some s =>
      ⟨level + 2 + s.size, .ok { symbol := .string, value := String.ofList s.result }⟩
    | none => ⟨cs.length, .error .unfinishedLongString⟩
  | none =>
    match LongBracket.equalsRun cs.tail with
    | 0 => ⟨1, .ok { symbol := .leftBracket }⟩
    | n + 1 => ⟨n + 2, .error (.invalidLongDelimiter (String.ofList (cs.take (n + 2))))⟩

/-- Punctuation. Of the characters that begin no lexeme, only a `~` is read past. -/
def readPunctuation (c : Char) (cs : List Char) : Scan (Except LexError Lexeme) :=
  match Symbol.punctuation? (c :: cs) with
  | some s => ⟨s.spelling.length, .ok { symbol := s }⟩
  | none => ⟨if c = '~' then 1 else 0, .error (.unexpectedCharacter c)⟩

def beginsNumeral (c : Char) (cs : List Char) : Bool :=
  c.isDigit || (c == '.' && cs.head?.any Char.isDigit)

/-- The lexeme at the head of a text that begins with neither a blank nor a comment. -/
def read : List Char → Scan (Except LexError Lexeme)
  | [] => ⟨0, .ok { symbol := .eof }⟩
  | c :: cs =>
    if c = '[' then readBracket (c :: cs)
    else if c = '"' ∨ c = '\'' then readQuoted c cs
    else if beginsNumeral c cs then (readNumeral (c :: cs)).map .ok
    else if isNameStart c then (readWord (c :: cs)).map .ok
    else readPunctuation c cs

end Lexeme

end LuaSource
