-- SUMMARY: Reading tokens, one and all of a source, on cursors that check their slices.
import LuaSource.Checked.Cursor
import LuaSource.Lexer

/-!
# Checked lexers

These are the productions of tokens on a cursor that checks its slices, where the byte of an escape
is checked as well. They give an answer as they do on a cursor that does not, or nothing if a check
fails on the way. A mark is a position, and nothing is known of it but its offset.

A lexer keeps its cursor from call to call, behind errors as well as behind tokens.
-/

namespace LuaSource.Checked

-- ---------------------------------------------------------------------------
-- Scanners
-- ---------------------------------------------------------------------------

abbrev Scanner : Type → Type := ExceptT (Located LexError) (StateT Cursor Option)

namespace Scanner

variable {α : Type}

/-- What a check gives, which leaves the cursor as it is. -/
def look (check : Cursor → Option α) : Scanner α := fun c => (check c).map fun a => (.ok a, c)

/-- Move the cursor, if the checks on the way allow it. -/
def move (step : Cursor → Option (α × Cursor)) : Scanner α :=
  fun c => (step c).map fun r => (.ok r.1, r.2)

instance : Scanning Scanner Position where
  peek := look Cursor.peek?
  peekSecond := look Cursor.peekSecond?
  rest := look Cursor.rest?
  mark := look fun c => some c.position
  restore mark := move fun c => some ((), { c with position := mark })
  sliceFrom mark := look fun c => (c.sliceFrom? mark).map String.ofList
  advance := move fun c => c.advance?.map fun r => ((), r.2)
  eat expected := move (·.eat? expected)
  save ch := move fun c => some ((), c.save ch)
  saveAndAdvance := move fun c => c.saveAndAdvance?.map fun c => ((), c)
  takeBuffer := move fun c => some (c.buffer, { c with buffer := "" })
  clearBuffer := move fun c => some ((), { c with buffer := "" })
  fail e c := some (.error ⟨e, Span.empty c.position⟩, c)
  token start s value := look fun c => some { symbol := s, value, span := ⟨start, c.position⟩ }
  byte n := look fun _ => if n < 256 then some n else none

/-- Pass the `#` line that a script starts with, if there is one. -/
def skipShebang : Scanner Unit := do
  if (← Scanning.mark).offset ≤ 3 && (← Scanning.peek) == some '#' then Scanner.skipLine

end Scanner


-- ---------------------------------------------------------------------------
-- Calls
-- ---------------------------------------------------------------------------

/-- A cursor on a source, behind its `#` line if that is to be passed over. -/
def Cursor.ofSource (source : String) (skipShebang : Bool) : Option Cursor :=
  let c := Cursor.ofText source.toList
  if skipShebang then (Scanner.skipShebang c).map Prod.snd else some c

/-- What a message quotes. The symbol stands in for a text only where there should be none. -/
def text? (t : Token) : Option String :=
  if t.symbol.carriesText then t.value else some (t.value.getD t.symbol.spelling)

namespace Lexer

/-- The next token, which goes to a log with its text, and the cursor behind it. -/
def next (c : Cursor) : Option (Except (Located LexError) Token × Cursor) := do
  match ← (Scanner.next : Scanner Token) c with
  | (.ok t, c) =>
    let _ ← text? t
    return (.ok t, c)
  | (.error e, c) => return (.error e, c)

/-- What a call answers that a number of calls come before. -/
def answer (c : Cursor) : Nat → Option (Except (Located LexError) Token)
  | 0 => (next c).map Prod.fst
  | n + 1 => do
    let (_, c) ← next c
    answer c n

end Lexer

namespace Tokens

/-- Read the tokens after those in `done`, which holds the last one first. There have to be less
than `n` before the end. -/
def readFrom (done : List Token) (c : Cursor) : Nat → Option LuaSource.Tokens
  | 0 => none
  | n + 1 => do
    match ← Lexer.next c with
    | (.error e, _) => return ⟨done.reverse, .error e⟩
    | (.ok t, c) =>
      if t.symbol = .eof then return ⟨done.reverse, .ok t⟩ else readFrom (t :: done) c n

/-- The tokens of a source, of which there are no more than characters. -/
def ofSource (source : String) (skipShebang : Bool) : Option LuaSource.Tokens := do
  let c ← Cursor.ofSource source skipShebang
  readFrom [] c ((← c.rest?).length + 1)

end Tokens

/-- All tokens of a source, the last being its end. -/
def tokenize (source : String) : Option (Except (Located LexError) (List Token)) :=
  (Tokens.ofSource source false).map LuaSource.Tokens.toList

end LuaSource.Checked
