-- SUMMARY: What parsers are put together from, ways of combining them, and parsers of windows.
import LuaSource.Diagnostic
import LuaSource.Lexer
import LuaSource.Tree

/-!
# Parsers

A parser takes tokens and gives a result, or it ends with a fault at the current token. Parsers are
put together from a few actions and depend on nothing else, so that they run on every state that has
these. The simplest one is a token window.

A parser decides by the current token and the one that follows it. So both must have been
read: when a token is consumed, the one behind the window has to be read in exchange, and
if it cannot be read, parsing ends there.
-/

namespace LuaSource

-- ---------------------------------------------------------------------------
-- Indices
-- ---------------------------------------------------------------------------

/-- A difference of numbers that has to be one itself. -/
def minus? (n k : Nat) : Option Nat := if k ≤ n then some (n - k) else none

/-- The last item, found by its index. -/
def last? {α : Type} (as : List α) : Option α := do
  as[← minus? as.length 1]?


-- ---------------------------------------------------------------------------
-- Actions
-- ---------------------------------------------------------------------------

/-- What parsers are put together from. -/
class Parsing (m : Type → Type) where
  current : m Token
  /-- The symbol of the current token. -/
  symbol : m Symbol
  /-- The symbol of the token behind the current one. -/
  followingSymbol : m Symbol
  /-- Whether the current token starts on the line on which the one before it ends. -/
  onSameLine : m Bool
  /-- The tokens from the current one on, without the end of the source. -/
  ahead : m (List Token)
  /-- Take the current token. -/
  consume : m Token
  /-- End the parse with a fault that quotes the current token. -/
  fail {α : Type} : (String → ParseFault) → m α
  /-- An item that has to be found, where it is known what is found. -/
  check {α : Type} : (found : Option α) → (known : α) → m α

namespace Parse

section Combinators

open Parsing

variable {m : Type → Type} [Monad m] [Parsing m] {α β : Type}

-- ---------------------------------------------------------------------------
-- Taking tokens
-- ---------------------------------------------------------------------------

/-- Take the current token if it is the given symbol. -/
def accept (s : Symbol) : m (Option Token) := do
  if (← symbol) = s then return some (← consume) else return none

def expect (s : Symbol) : m Token := do
  if (← symbol) = s then consume else fail (.expected s.spelling)

/-- Expect what closes a construct. If the construct was opened on an earlier line, the message
says which one is meant. -/
def expectClosing (closer opener : Symbol) (openerLine : Nat) : m Token := do
  let token ← current
  if token.symbol = closer then consume
  else if token.span.start.line = openerLine then fail (.expected closer.spelling)
  else fail (.unclosed closer.spelling opener.spelling openerLine)

/-- The text of a name, numeral or string. -/
def content (t : Token) : m String := check t.value t.content

def expectName : m Name := do
  let token ← expect .name
  return ⟨← content token, token.span⟩


-- ---------------------------------------------------------------------------
-- Repetition
-- ---------------------------------------------------------------------------

/-- Take steps until one of them gives a result, at most one for each of some tokens and one
more. -/
def loopAlong (step : α → m (α ⊕ β)) : List Token → α → m β
  | [], a => do
    match ← step a with
    | .inl _ => fail .tooManyLevels
    | .inr b => return b
  | _ :: ts, a => do
    match ← step a with
    | .inl a => loopAlong step ts a
    | .inr b => return b

/-- Take steps until one of them gives a result. A step that goes on takes a token at least, so
that the tokens ahead are enough. -/
def loop (step : α → m (α ⊕ β)) (a : α) : m β := do
  loopAlong step (← ahead) a

/-- Go on with a list, whose last item comes first, if a separator follows. The item may depend on
the separator. -/
def separatedStep (separator : Symbol) (item : Token → m α) (items : List α) :
    m (List α ⊕ List α) := do
  match ← accept separator with
  | some token => return .inl ((← item token) :: items)
  | none => return .inr items.reverse

/-- The list of a first item and those behind it, with separators between them. -/
def separated (separator : Symbol) (item : Token → m α) (first : α) : m (List α) :=
  loop (separatedStep separator item) [first]

/-- One item or more, with commas between them. -/
def commaList (item : m α) : m (List α) := do
  separated .comma (fun _ => item) (← item)

end Combinators

end Parse


-- ---------------------------------------------------------------------------
-- Windows
-- ---------------------------------------------------------------------------

structure Window where
  /-- The tokens from the current one on, without the end of the source. -/
  ahead : List Token
  /-- The end of the source, or what keeps it from being reached. -/
  ending : Except (Located LexError) Token
  /-- Where the token before the current one ends. -/
  before : Position

/-- A lexical error as it ends a parse. -/
def Located.toFault (e : Located LexError) : Located ParseFault := ⟨.lexical e.cause, e.span⟩

namespace Window

/-- What stands in for tokens behind the last one. -/
def endToken (w : Window) : Token :=
  match w.ending with
  | .ok t => t
  | .error e => Token.eof e.span.start

def current (w : Window) : Token := w.ahead.head?.getD w.endToken

def following (w : Window) : Token := w.ahead[1]?.getD w.endToken

/-- The error that is met when `n` tokens have to be read, if there is one. -/
def errorWithin? (w : Window) (n : Nat) : Option (Located LexError) :=
  match w.ending with
  | .ok _ => none
  | .error e => if (w.ahead.drop (n - 1)).isEmpty then some e else none

/-- A window on tokens of which none is consumed yet. -/
def ofTokens (ts : Tokens) : Except (Located ParseFault) Window :=
  let w : Window := ⟨ts.tokens, ts.ending, Position.start⟩
  match w.errorWithin? 2 with
  | some e => .error e.toFault
  | none => .ok w

/-- Take the current token, which takes reading a third one. -/
def consume (w : Window) : Except (Located ParseFault) (Token × Window) :=
  match w.errorWithin? 3 with
  | some e => .error e.toFault
  | none =>
    .ok (w.current, { w with ahead := w.ahead.tail, before := w.current.span.stop })

@[simp] theorem current_cons (t : Token) (ts : List Token) (r : Except (Located LexError) Token)
    (p : Position) : (Window.mk (t :: ts) r p).current = t := rfl

theorem consume_of_ok {w : Window} {eof : Token} (h : w.ending = .ok eof) :
    w.consume =
      .ok (w.current, { w with ahead := w.ahead.tail, before := w.current.span.stop }) := by
  simp [consume, errorWithin?, h]

end Window


-- ---------------------------------------------------------------------------
-- Parsers of windows
-- ---------------------------------------------------------------------------

/-- Parsers on a token window. What is known needs no check there. -/
abbrev Parse : Type → Type := StateT Window (Except (Located ParseFault))

instance : Parsing Parse where
  current w := .ok (w.current, w)
  symbol w := .ok (w.current.symbol, w)
  followingSymbol w := .ok (w.following.symbol, w)
  onSameLine w := .ok (w.current.span.start.line == w.before.line, w)
  ahead w := .ok (w.ahead, w)
  consume := Window.consume
  fail fault w := .error ⟨fault w.current.text, w.current.span⟩
  check _ known := pure known

namespace Parse

open Parsing

variable {α β : Type}

theorem bind_apply (p : Parse α) (f : α → Parse β) (w : Window) :
    (p >>= f) w = (p w).bind fun r => f r.1 r.2 := rfl

/-- A sequence gives a result just if both of its parts do. -/
theorem bind_eq_ok_iff {p : Parse α} {f : α → Parse β} {w : Window} {r : β × Window} :
    (p >>= f) w = .ok r ↔ ∃ a w', p w = .ok (a, w') ∧ f a w' = .ok r := by
  rw [bind_apply]
  cases h : p w with
  | error e => simp [Except.bind]
  | ok s =>
    obtain ⟨a, w'⟩ := s
    constructor
    · intro hf
      exact ⟨a, w', rfl, hf⟩
    · rintro ⟨a', w'', heq, hf⟩
      cases heq
      exact hf

theorem symbol_bind (f : Symbol → Parse α) (w : Window) :
    (symbol >>= f) w = f w.current.symbol w := rfl

theorem followingSymbol_bind (f : Symbol → Parse α) (w : Window) :
    (followingSymbol >>= f) w = f w.following.symbol w := rfl

theorem content_bind (t : Token) (f : String → Parse α) : content t >>= f = f t.content := rfl

theorem consume_apply (w : Window) : (consume : Parse Token) w = w.consume := rfl

theorem loop_apply (step : α → Parse (α ⊕ β)) (a : α) (w : Window) :
    loop step a w = loopAlong step w.ahead a w := rfl

theorem accept_of_eq {s : Symbol} {w : Window} (h : w.current.symbol = s) :
    (accept s : Parse (Option Token)) w = w.consume.bind fun r => .ok (some r.1, r.2) := by
  rw [accept, symbol_bind, if_pos h]
  rfl

theorem accept_of_ne {s : Symbol} {w : Window} (h : w.current.symbol ≠ s) :
    (accept s : Parse (Option Token)) w = .ok (none, w) := by
  rw [accept, symbol_bind, if_neg h]
  rfl

theorem expect_of_eq {s : Symbol} {w : Window} (h : w.current.symbol = s) :
    (expect s : Parse Token) w = w.consume := by
  rw [expect, symbol_bind, if_pos h]
  rfl

theorem expect_of_ne {s : Symbol} {w : Window} (h : w.current.symbol ≠ s) :
    (expect s : Parse Token) w = .error ⟨.expected s.spelling w.current.text, w.current.span⟩ := by
  rw [expect, symbol_bind, if_neg h]
  rfl

end Parse

end LuaSource
