-- SUMMARY: Reading a source text token by token, and as the whole sequence of its tokens.
import LuaSource.Lexeme.Read
import LuaSource.Scanner

/-!
# Tokens of a source

A token is read by going over blanks and comments and then reading one lexeme. Where
either fails, reading stops at that place, and from there it can go on.
-/

namespace LuaSource

-- ---------------------------------------------------------------------------
-- One token
-- ---------------------------------------------------------------------------

/-- Read the next token from a place, and the place where reading stopped. -/
def Place.readToken (p : Place) : Except (Located LexError) Token × Place :=
  let trivia := Trivia.read p.rest
  let start := p.skip trivia.size
  match trivia.result with
  | .error e => (.error ⟨e, Span.empty start.position⟩, start)
  | .ok () =>
    let lexeme := Lexeme.read start.rest
    let stop := start.skip lexeme.size
    match lexeme.result with
    | .error e => (.error ⟨e, Span.empty stop.position⟩, stop)
    | .ok l => (.ok { l with span := ⟨start.position, stop.position⟩ }, stop)

/-- Whether a place is so near the start of its source that a `#` there makes it a script. The
bound lets a byte-order mark stand before. -/
def Place.isScriptStart (p : Place) : Bool :=
  p.position.offset ≤ 3 && p.rest.head? == some '#'

/-- The place behind the `#` line that a script starts with, if this is one. -/
def Place.skipShebang (p : Place) : Place :=
  if p.isScriptStart then p.skip (p.rest.takeWhile (!isNewline ·)).length else p


-- ---------------------------------------------------------------------------
-- The sequence of all tokens
-- ---------------------------------------------------------------------------

/-- The tokens of a source before the first that cannot be read or, if all can, before the one
that marks its end. -/
structure Tokens where
  tokens : List Token
  ending : Except (Located LexError) Token

namespace Tokens

/-- Read at most `n` tokens more after those in `done`, which holds the last one first. -/
def readFrom (done : List Token) (p : Place) : Nat → Tokens
  | 0 => ⟨done.reverse, .ok (Token.eof p.position)⟩
  | n + 1 =>
    match p.readToken with
    | (.error e, _) => ⟨done.reverse, .error e⟩
    | (.ok t, p) => if t.symbol = .eof then ⟨done.reverse, .ok t⟩ else readFrom (t :: done) p n

/-- The tokens from a place on. Each takes up a character at least, so that there are no more of
them than characters. -/
def ofPlace (p : Place) : Tokens := readFrom [] p (p.rest.length + 1)

/-- All tokens and the end, if all of them can be read. -/
def toList (ts : Tokens) : Except (Located LexError) (List Token) :=
  ts.ending.map fun eof => ts.tokens ++ [eof]

end Tokens

/-- All tokens of a source, the last being its end. -/
def tokenize (source : String) : Except (Located LexError) (List Token) :=
  (Tokens.ofPlace (Place.ofText source.toList)).toList


-- ---------------------------------------------------------------------------
-- Reading on demand
-- ---------------------------------------------------------------------------

/-- A source that is read one token at a time. -/
structure Lexer where
  cursor : Cursor
  /-- Whether the end or an error has been met by `next?`. -/
  finished : Bool := false

namespace Lexer

def ofText (source : String) : Lexer := { cursor := Cursor.ofText source.toList }

def skipShebang (l : Lexer) : Lexer :=
  { l with cursor := l.cursor.restore l.cursor.place.skipShebang }

/-- A lexer on a source, behind its `#` line if that is to be passed over. -/
def ofSource (source : String) (skipShebang : Bool) : Lexer :=
  if skipShebang then (ofText source).skipShebang else ofText source

/-- The next token. Once at the end of the source, every further token is the end again. -/
def next (l : Lexer) : Except (Located LexError) Token × Lexer :=
  match (Scanner.next : Scanner Token) l.cursor with
  | .ok token cursor => (.ok token, { l with cursor })
  | .error e cursor => (.error e, { l with cursor })

/-- The next token, which is traced in a log if it can be read. -/
def nextLogged (l : Lexer) (log : List LogRecord) :
    Except (Located LexError) Token × Lexer × List LogRecord :=
  match l.next with
  | (.ok t, l) => (.ok t, l, log ++ [t.logRecord])
  | (.error e, l) => (.error e, l, log)

/-- The next token of a sequence that stops with the end of the source or an error. -/
def next? (l : Lexer) : Option (Except (Located LexError) Token) × Lexer :=
  if l.finished then (none, l)
  else
    let (token, l) := l.next
    let finished := match token with
      | .ok t => t.symbol == .eof
      | .error _ => true
    (some token, { l with finished })

end Lexer

end LuaSource
