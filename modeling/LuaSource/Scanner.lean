-- SUMMARY: Reading a token character by character, with one buffer for the values of all lexemes.
import LuaSource.Lexeme.Quoted
import LuaSource.Numeral
import LuaSource.Text.Cursor
import LuaSource.Token

/-!
# Scanners

A scanner moves a cursor over the text and collects the value of a lexeme in the buffer of the
cursor. Where it fails, the cursor stays as it is: what is scanned next starts there, with what the
buffer holds. Scanners are put together from a few actions and depend on nothing else, so that they
run on every kind of cursor that has these.
-/

namespace LuaSource

-- ---------------------------------------------------------------------------
-- Actions
-- ---------------------------------------------------------------------------

/-- What scanners are put together from. A mark tells where the cursor has been. -/
class Scanning (m : Type → Type) (Mark : outParam Type) where
  /-- The next character. -/
  peek : m (Option Char)
  /-- The character after the one that `peek` shows. -/
  peekSecond : m (Option Char)
  /-- All that is left to read. -/
  rest : m (List Char)
  mark : m Mark
  restore : Mark → m Unit
  /-- The text from a mark up to the cursor. -/
  sliceFrom : Mark → m String
  /-- Pass one character, or one newline whatever its form. -/
  advance : m Unit
  /-- Pass the next character if it is the expected one. -/
  eat : Char → m Bool
  save : Char → m Unit
  saveAndAdvance : m Unit
  takeBuffer : m String
  clearBuffer : m Unit
  /-- Fail where the cursor is. -/
  fail {α : Type} : LexError → m α
  /-- The token from a mark up to the cursor. -/
  token : (start : Mark) → (s : Symbol) → (value : Option String := none) → m Token
  /-- A number that has to fit in a byte. -/
  byte : Nat → m Nat

namespace Scanner

section Actions

open Scanning

variable {m : Type → Type} {Mark : Type} [Monad m] [Scanning m Mark] {α β : Type}

-- ---------------------------------------------------------------------------
-- Repetition
-- ---------------------------------------------------------------------------

/-- Take steps, each at a character, until one gives a result or the text is at its end. A step
that goes on passes a character at least, so that there are no more of them than characters in the
bound. -/
def loopAlong (step : Char → α → m (α ⊕ β)) (atEnd : α → m β) : List Char → α → m β
  | [], a => atEnd a
  | _ :: bound, a => do
    match ← peek with
    | none => atEnd a
    | some ch =>
      match ← step ch a with
      | .inl a => loopAlong step atEnd bound a
      | .inr b => return b

def loop (step : Char → α → m (α ⊕ β)) (atEnd : α → m β) (a : α) : m β := do
  loopAlong step atEnd (← rest) a

def whileStep (p : Char → Bool) (act : m Unit) (ch : Char) (_ : Unit) : m (Unit ⊕ Unit) := do
  if p ch then
    act
    return .inl ()
  else return .inr ()

/-- Take an action for as long as a character of some kind is next. -/
def whileNext (p : Char → Bool) (act : m Unit) : m Unit :=
  loop (whileStep p act) (fun _ => pure ()) ()

def equalsStep (ch : Char) (n : Nat) : m (Nat ⊕ Nat) := do
  if ch = '=' then
    advance
    return .inl (n + 1)
  else return .inr n

/-- Pass equals signs and count them. -/
def equals : m Nat := loop equalsStep pure 0

def saveEquals : Nat → m Unit
  | 0 => pure ()
  | n + 1 => do
    save '='
    saveEquals n


-- ---------------------------------------------------------------------------
-- Long brackets
-- ---------------------------------------------------------------------------

/-- Pass `[`, equals signs and a second `[`. The result is the level or, if there is no second
bracket, how many equals signs there were. -/
def openBracket : m (Except Nat Nat) := do
  advance
  let level ← equals
  return if ← eat '[' then .ok level else .error level

/-- A `]` may begin the closer. If it does not, what was passed belongs to the body, and the next
`]` is looked at in its turn. -/
def bodyStep (level : Nat) (ch : Char) (_ : Unit) : m (Unit ⊕ String) := do
  if ch = ']' then
    advance
    let count ← equals
    if ← (if count = level then eat ']' else pure false) then return .inr (← takeBuffer)
    else
      save ']'
      saveEquals count
      return .inl ()
  else
    saveAndAdvance
    return .inl ()

def skipNewline : m Unit := do
  if (← peek).any isNewline then advance

/-- The value of a long bracket, from behind its opener. -/
def bracketBody (level : Nat) (unfinished : LexError) : m String := do
  skipNewline
  loop (bodyStep level) (fun _ => fail unfinished) ()

def skipLine : m Unit := whileNext (!isNewline ·) advance

/-- A comment, from behind its `--`. -/
def skipComment : m Unit := do
  if (← peek) = some '[' then
    let start ← mark
    match ← openBracket with
    | .ok level =>
      let _ ← bracketBody level .unfinishedLongComment
      clearBuffer
    | .error _ =>
      restore start
      skipLine
  else skipLine

def bracket (start : Mark) : m Token := do
  match ← openBracket with
  | .ok level =>
    let value ← bracketBody level .unfinishedLongString
    token start .string value
  | .error 0 =>
    restore start
    advance
    token start .leftBracket
  | .error _ => fail (.invalidLongDelimiter (← sliceFrom start))


-- ---------------------------------------------------------------------------
-- Short strings
-- ---------------------------------------------------------------------------

/-- Fail inside a short string, whose value so far is dropped. -/
def failString (e : LexError) : m α := do
  clearBuffer
  fail e

/-- Pass digits up to a number of them, behind those in `digits`. -/
def decimalDigits : Nat → List Char → m (List Char)
  | 0, digits => return digits
  | n + 1, digits => do
    match ← peek with
    | none => return digits
    | some ch =>
      if ch.isDigit then
        advance
        decimalDigits n (digits ++ [ch])
      else return digits

def decimalEscape : m Unit := do
  let digits ← decimalDigits 3 []
  let n := digitsValue 10 digits
  if n ≤ 255 then save (Char.ofNat n)
  else failString (.escapeTooLarge (String.ofList ('\\' :: digits)))

/-- The rest of an escape of which `seen` is passed and counts `value`, and a number of digits is
missing. The value is kept in a byte. -/
def hexDigits : Nat → List Char → Nat → m Unit
  | 0, _, value => save (Char.ofNat value)
  | n + 1, seen, value => do
    match ← peek with
    | none => failString (.hexDigitExpected (String.ofList seen))
    | some ch =>
      if isHexDigit ch then
        advance
        let shifted ← byte (value * 16)
        hexDigits n (seen ++ [ch]) (← byte (shifted + digitValue ch))
      else
        let near := if isNewline ch then seen else seen ++ [ch]
        failString (.hexDigitExpected (String.ofList near))

/-- An escape, from behind its backslash. -/
def escape : m Unit := do
  match ← peek with
  | none => failString (.unfinishedString Symbol.eof.spelling)
  | some ch =>
    match Quoted.letters.lookup ch with
    | some d =>
      advance
      save d
    | none =>
      if isNewline ch then
        advance
        save '\n'
      else if ch = 'x' then
        advance
        hexDigits 2 ['\\', 'x'] 0
      else if ch.isDigit then decimalEscape
      else
        advance
        save ch

def quotedStep (quote : Char) (start : Mark) (ch : Char) (_ : Unit) : m (Unit ⊕ Unit) := do
  if isNewline ch then failString (.unfinishedString (← sliceFrom start))
  else if ch = '\\' then
    advance
    escape
    return .inl ()
  else if ch = quote then
    advance
    return .inr ()
  else
    saveAndAdvance
    return .inl ()

def quoted (quote : Char) (start : Mark) : m Token := do
  advance
  loop (quotedStep quote start) (fun _ => failString (.unfinishedString Symbol.eof.spelling)) ()
  token start .string (← takeBuffer)


-- ---------------------------------------------------------------------------
-- Numerals and words
-- ---------------------------------------------------------------------------

/-- What a numeral has had so far. -/
structure Seen where
  dot : Bool := false
  exponent : Bool := false

def isSign (ch : Char) : Bool := ch == '+' || ch == '-'

def saveSign : m Unit := do
  if (← peek).any isSign then saveAndAdvance

def numeralStep (hex : Bool) (ch : Char) (seen : Seen) : m (Seen ⊕ Unit) := do
  if Numeral.isExponentMark hex ch && !seen.exponent then
    saveAndAdvance
    saveSign
    return .inl { seen with exponent := true }
  else if ch == '.' && !seen.dot && !seen.exponent then
    saveAndAdvance
    return .inl { seen with dot := true }
  else if (hex && !seen.exponent && isHexDigit ch) || ch.isDigit then
    saveAndAdvance
    return .inl seen
  else return .inr ()

/-- Whether a numeral in base sixteen comes next. -/
def hexNext : m Bool := do
  let zero := (← peek) == some '0'
  let x ← peekSecond
  return zero && (x == some 'x' || x == some 'X')

def saveHexMark : m Unit := do
  saveAndAdvance
  saveAndAdvance

/-- A numeral, from behind the mark of base sixteen if it has one. -/
def numeralRest (hex : Bool) (start : Mark) : m Token := do
  loop (numeralStep hex) (fun _ => pure ()) {}
  whileNext isNameContinue saveAndAdvance
  token start .number (← takeBuffer)

def numeral (start : Mark) : m Token := do
  let hex ← hexNext
  if hex then saveHexMark
  numeralRest hex start

def word (start : Mark) : m Token := do
  whileNext isNameContinue saveAndAdvance
  let text ← takeBuffer
  match Symbol.keyword? text with
  | some keyword => token start keyword
  | none => token start .name text


-- ---------------------------------------------------------------------------
-- Tokens
-- ---------------------------------------------------------------------------

/-- Punctuation that another character may go on with. -/
def oneOrTwo (second : Char) (short long : Symbol) (start : Mark) : m Token := do
  advance
  if ← eat second then token start long else token start short

def dots (start : Mark) : m Token := do
  advance
  if ← eat '.' then
    if ← eat '.' then token start .ellipsis else token start .concat
  else token start .dot

/-- Punctuation that nothing goes on with. -/
def singles : List Symbol := [
  .plus, .star, .slash, .percent, .caret, .hash, .leftParen, .rightParen, .leftBrace, .rightBrace,
  .rightBracket, .semicolon, .comma]

def single? (ch : Char) : Option Symbol := singles.find? (·.spelling.toList == [ch])

/-- The lexeme that a character begins, which is no blank. -/
def lexeme (ch : Char) (start : Mark) : m Token := do
  if ch = '[' then bracket start
  else if ch = '=' then oneOrTwo '=' .assign .equal start
  else if ch = '<' then oneOrTwo '=' .less .lessEqual start
  else if ch = '>' then oneOrTwo '=' .greater .greaterEqual start
  else if ch = ':' then oneOrTwo ':' .colon .doubleColon start
  else if ch = '~' then
    advance
    if ← eat '=' then token start .notEqual else fail (.unexpectedCharacter '~')
  else if ch = '.' then
    if (← peekSecond).any Char.isDigit then numeral start else dots start
  else if ch = '"' ∨ ch = '\'' then quoted ch start
  else if ch.isDigit then numeral start
  else if isNameStart ch then word start
  else
    match single? ch with
    | some s =>
      advance
      token start s
    | none => fail (.unexpectedCharacter ch)

/-- Pass a blank or a comment, or read a lexeme. -/
def nextStep (ch : Char) (_ : Unit) : m (Unit ⊕ Token) := do
  let start ← mark
  if isBlank ch then
    advance
    return .inl ()
  else if ch = '-' then
    advance
    if ← eat '-' then
      skipComment
      return .inl ()
    else return .inr (← token start .minus)
  else return .inr (← lexeme ch start)

/-- The next token, which is the end of the source where there is no other. -/
def next : m Token := loop nextStep (fun _ => do token (← mark) .eof) ()

end Actions

end Scanner


-- ---------------------------------------------------------------------------
-- Cursors
-- ---------------------------------------------------------------------------

/-- Scanners on a cursor, which stays where it is when they fail. -/
abbrev Scanner : Type → Type := EStateM (Located LexError) Cursor

instance : Scanning Scanner Place where
  peek c := .ok c.peek c
  peekSecond c := .ok c.peekSecond c
  rest c := .ok c.place.rest c
  mark c := .ok c.mark c
  restore mark c := .ok () (c.restore mark)
  sliceFrom mark c := .ok (String.ofList (c.sliceFrom mark)) c
  advance c := .ok () c.advance.2
  eat expected c := .ok (c.eat expected).1 (c.eat expected).2
  save ch c := .ok () (c.save ch)
  saveAndAdvance c := .ok () c.saveAndAdvance
  takeBuffer c := .ok c.takeBuffer.1 c.takeBuffer.2
  clearBuffer c := .ok () c.clearBuffer
  fail e c := .error ⟨e, Span.empty c.position⟩ c
  token start s value c := .ok { symbol := s, value, span := ⟨start.position, c.position⟩ } c
  byte := pure

end LuaSource
