-- SUMMARY: Symbols, lexemes and tokens, and the records that a log has of tokens.
import LuaSource.Text.Position

/-!
# Symbols and tokens

The parser sees a source text as a word over these symbols. Keywords and punctuation have
one spelling each; the others stand for a class of texts and are named in angle brackets.

A lexeme is a symbol with the text it stands for, if its class has more than one. A token
is a lexeme at a span of the source.

Log records are values, which a caller may write wherever it keeps its log.
-/

namespace LuaSource

inductive Symbol
  | kwAnd | kwBreak | kwDo | kwElse | kwElseif | kwEnd | kwFalse | kwFor | kwFunction | kwGoto
  | kwIf | kwIn | kwLocal | kwNil | kwNot | kwOr | kwRepeat | kwReturn | kwThen | kwTrue
  | kwUntil | kwWhile
  | plus | minus | star | slash | percent | caret | hash
  | equal | notEqual | lessEqual | greaterEqual | less | greater | assign
  | leftParen | rightParen | leftBrace | rightBrace | leftBracket | rightBracket
  | doubleColon | semicolon | colon | comma | dot | concat | ellipsis
  | number | string | name
  | eof
deriving DecidableEq

namespace Symbol

/-- Every symbol, in the order of the alphabet. -/
def all : List Symbol := [
  kwAnd, kwBreak, kwDo, kwElse, kwElseif, kwEnd, kwFalse, kwFor, kwFunction, kwGoto,
  kwIf, kwIn, kwLocal, kwNil, kwNot, kwOr, kwRepeat, kwReturn, kwThen, kwTrue,
  kwUntil, kwWhile,
  plus, minus, star, slash, percent, caret, hash,
  equal, notEqual, lessEqual, greaterEqual, less, greater, assign,
  leftParen, rightParen, leftBrace, rightBrace, leftBracket, rightBracket,
  doubleColon, semicolon, colon, comma, dot, concat, ellipsis,
  number, string, name,
  eof]

theorem mem_all (s : Symbol) : s ∈ all := by
  cases s <;> decide

/-- How the symbol is written, in a source text or, for a class, in a message. -/
def spelling : Symbol → String
  | kwAnd => "and"
  | kwBreak => "break"
  | kwDo => "do"
  | kwElse => "else"
  | kwElseif => "elseif"
  | kwEnd => "end"
  | kwFalse => "false"
  | kwFor => "for"
  | kwFunction => "function"
  | kwGoto => "goto"
  | kwIf => "if"
  | kwIn => "in"
  | kwLocal => "local"
  | kwNil => "nil"
  | kwNot => "not"
  | kwOr => "or"
  | kwRepeat => "repeat"
  | kwReturn => "return"
  | kwThen => "then"
  | kwTrue => "true"
  | kwUntil => "until"
  | kwWhile => "while"
  | plus => "+"
  | minus => "-"
  | star => "*"
  | slash => "/"
  | percent => "%"
  | caret => "^"
  | hash => "#"
  | equal => "=="
  | notEqual => "~="
  | lessEqual => "<="
  | greaterEqual => ">="
  | less => "<"
  | greater => ">"
  | assign => "="
  | leftParen => "("
  | rightParen => ")"
  | leftBrace => String.singleton '{'
  | rightBrace => String.singleton '}'
  | leftBracket => "["
  | rightBracket => "]"
  | doubleColon => "::"
  | semicolon => ";"
  | colon => ":"
  | comma => ","
  | dot => "."
  | concat => ".."
  | ellipsis => "..."
  | number => "<number>"
  | string => "<string>"
  | name => "<name>"
  | eof => "<eof>"


-- ---------------------------------------------------------------------------
-- Keywords
-- ---------------------------------------------------------------------------

/-- The keywords, in alphabetical order. -/
def keywords : List Symbol := [
  kwAnd, kwBreak, kwDo, kwElse, kwElseif, kwEnd, kwFalse, kwFor, kwFunction, kwGoto,
  kwIf, kwIn, kwLocal, kwNil, kwNot, kwOr, kwRepeat, kwReturn, kwThen, kwTrue,
  kwUntil, kwWhile]

def isKeyword (s : Symbol) : Bool := keywords.contains s

/-- The keyword that a word spells. -/
def keyword? (word : String) : Option Symbol :=
  keywords.find? fun s => s.spelling == word

theorem keyword?_spelling {s : Symbol} (h : s ∈ keywords) : keyword? s.spelling = some s := by
  revert s
  decide

theorem isKeyword_of_keyword? {word : String} {s : Symbol} (h : keyword? word = some s) :
    s.isKeyword = true := by
  simpa [isKeyword] using List.mem_of_find?_eq_some h


-- ---------------------------------------------------------------------------
-- Punctuation
-- ---------------------------------------------------------------------------

/-- The punctuation, a longer spelling before every other one that it begins with. -/
def punctuation : List Symbol := [
  ellipsis, concat, dot, equal, assign, notEqual, lessEqual, less, greaterEqual, greater,
  doubleColon, colon, plus, minus, star, slash, percent, caret, hash, leftParen, rightParen,
  leftBrace, rightBrace, leftBracket, rightBracket, semicolon, comma]

/-- The punctuation that a text begins with, the longest if there are several. -/
def punctuation? (cs : List Char) : Option Symbol :=
  punctuation.find? fun s => s.spelling.toList.isPrefixOf cs

theorem punctuation?_spelling {s : Symbol} (h : s ∈ punctuation) :
    punctuation? s.spelling.toList = some s := by
  revert s
  decide


-- ---------------------------------------------------------------------------
-- Symbols that carry a text
-- ---------------------------------------------------------------------------

/-- Numbers, strings and names differ from one occurrence to the next. -/
def carriesText : Symbol → Bool
  | number | string | name => true
  | _ => false

end Symbol


-- ---------------------------------------------------------------------------
-- Lexemes and tokens
-- ---------------------------------------------------------------------------

structure Lexeme where
  symbol : Symbol
  value : Option String := none
deriving DecidableEq

/-- What a message quotes: the text of a name, numeral or string, else the symbol. -/
def Lexeme.text (l : Lexeme) : String := l.value.getD l.symbol.spelling

structure Token extends Lexeme where
  span : Span
deriving DecidableEq

namespace Token

def eof (p : Position) : Token := { symbol := .eof, span := Span.empty p }

/-- The text of a name, numeral or string. -/
def content (t : Token) : String := t.value.getD ""

/-- A span is shown by where it starts. -/
def describe (t : Token) : String :=
  t.text ++ " at " ++ t.span.start.describe

end Token


-- ---------------------------------------------------------------------------
-- Log records
-- ---------------------------------------------------------------------------

inductive LogLevel
  | trace
  | debug
deriving DecidableEq

structure LogRecord where
  level : LogLevel
  text : String
deriving DecidableEq

/-- The line of a log, which begins with the level. -/
def LogRecord.render : LogRecord → String
  | ⟨.trace, text⟩ => "TRACE " ++ text
  | ⟨.debug, text⟩ => "DEBUG " ++ text

/-- Each token that is read is traced with the place where it starts. -/
def Token.logRecord (t : Token) : LogRecord := ⟨.trace, t.describe⟩

end LuaSource
