-- SUMMARY: The outcome of reading from the head of a text, and what can keep it from being read.
import LuaSource.Text.Position

/-!
# Scans and lexical errors

A scan says how many characters it has read and what they are. It does not depend on
where in a source the text stands.

Each cause of an error has a code, which tools may rely on, and a message for people.
-/

namespace LuaSource

structure Scan (α : Type) where
  size : Nat
  result : α
deriving DecidableEq

namespace Scan

def map {α β : Type} (f : α → β) (s : Scan α) : Scan β := ⟨s.size, f s.result⟩

/-- The scan of a text that `n` more characters stand before. -/
def after {α : Type} (n : Nat) (s : Scan α) : Scan α := ⟨n + s.size, s.result⟩

end Scan


-- ---------------------------------------------------------------------------
-- Causes
-- ---------------------------------------------------------------------------

inductive LexError
  /-- A raw newline or the end of the text inside a short string. -/
  | unfinishedString (near : String)
  | unfinishedLongString
  | unfinishedLongComment
  /-- `[=` that no second `[` completes. -/
  | invalidLongDelimiter (near : String)
  /-- A character that begins no lexeme. -/
  | unexpectedCharacter (c : Char)
  /-- A decimal escape above 255. -/
  | escapeTooLarge (near : String)
  /-- `\x` without its two digits. -/
  | hexDigitExpected (near : String)
deriving DecidableEq

namespace LexError

def code : LexError → Nat
  | unfinishedString _ => 101
  | unfinishedLongString => 102
  | unfinishedLongComment => 103
  | invalidLongDelimiter _ => 104
  | unexpectedCharacter _ => 105
  | escapeTooLarge _ => 106
  | hexDigitExpected _ => 107

def message : LexError → String
  | unfinishedString near => s!"unfinished string near '{near}'"
  | unfinishedLongString => "unfinished long string near '<eof>'"
  | unfinishedLongComment => "unfinished long comment near '<eof>'"
  | invalidLongDelimiter near => s!"invalid long string delimiter near '{near}'"
  | unexpectedCharacter c => s!"unexpected symbol near '{c}'"
  | escapeTooLarge near => s!"decimal escape too large near '{near}'"
  | hexDigitExpected near => s!"hexadecimal digit expected near '{near}'"

end LexError


-- ---------------------------------------------------------------------------
-- Errors in a source
-- ---------------------------------------------------------------------------

/-- A cause, and the span of the source that it is about. -/
structure Located (α : Type) where
  cause : α
  span : Span
deriving DecidableEq

/-- A message with the place it is about. -/
def messageAt (message : String) (p : Position) : String :=
  message ++ " (" ++ p.describe ++ ")"

/-- Lexical errors are about the place where reading stopped. -/
def Located.message (e : Located LexError) : String := messageAt e.cause.message e.span.start

end LuaSource
