-- SUMMARY: Checked parsing of a source text, and checked layout of the names of functions.
import LuaSource.Checked.Lexer
import LuaSource.Chunk
import LuaSource.Format

/-!
# Checked chunks

These are the parsers on a state that counts the levels that are entered and not left, and that
knows the name of the source, which each fault is given where it is raised. Where a text is missing
in a token that should carry one, an item in a list, or a level to leave, there is no result at all,
not even a fault. The levels that may be entered are counted on the way down, while the recursion
runs on a number of its own.
-/

namespace LuaSource.Checked

-- ---------------------------------------------------------------------------
-- Parsers
-- ---------------------------------------------------------------------------

structure ParseState where
  window : Window
  /-- The name of the source in messages. -/
  chunkName : String
  /-- The levels that are entered and not left. -/
  depth : Nat := 0

abbrev Parse : Type → Type := StateT ParseState (ExceptT ParseError Option)

namespace Parse

variable {α : Type}

def look (f : Window → α) : Parse α := fun s => some (.ok (f s.window, s))

instance : Parsing Parse where
  current := look Window.current
  symbol := look (·.current.symbol)
  followingSymbol := look (·.following.symbol)
  onSameLine := look fun w => w.current.span.start.line == w.before.line
  ahead := look Window.ahead
  consume s :=
    match s.window.consume with
    | .ok (t, window) => some (.ok (t, { s with window }))
    | .error e => some (.error { e with chunkName := s.chunkName })
  fail fault s := (text? s.window.current).map fun near =>
    .error ⟨⟨fault near, s.window.current.span⟩, s.chunkName⟩
  check found _ s := found.map fun a => .ok (a, s)

/-- Enter a level, of which there may be `maxDepth`. -/
def enter (maxDepth : Nat) : Parse Unit := fun s =>
  let s := { s with depth := s.depth + 1 }
  if s.depth > maxDepth then (Parsing.fail .tooManyLevels : Parse Unit) s else some (.ok ((), s))

def leave : Parse Unit := fun s =>
  (minus? s.depth 1).map fun depth => .ok ((), { s with depth })

end Parse


-- ---------------------------------------------------------------------------
-- Sources
-- ---------------------------------------------------------------------------

abbrev Level := Nested Parse

/-- The level with a number of levels from it down. With none left there is no result. -/
def Level.ofFuel (maxDepth : Nat) : Nat → Level
  | 0 => { block := fun _ _ => none, operand := fun _ _ => none }
  | fuel + 1 =>
    { block := fun terminators => do
        Parse.enter maxDepth
        let b ← Grammar.block (ofFuel maxDepth fuel) terminators
        Parse.leave
        return b
      operand := fun limit => do
        Parse.enter maxDepth
        let e ← Grammar.operand (ofFuel maxDepth fuel) limit
        Parse.leave
        return e }

/-- The tree of a token sequence that goes by a name. -/
def Tokens.parse (ts : LuaSource.Tokens) (chunkName : String) (maxDepth : Nat) :
    Option (Except ParseError Block) := do
  match Window.ofTokens ts with
  | .error e => return .error { e with chunkName }
  | .ok window =>
    let result ← (Grammar.chunk (Level.ofFuel maxDepth (maxDepth + 1))).run { window, chunkName }
    return result.map Prod.fst

/-- The tree of a source text, or the fault that it has first. -/
def parse (source : String) (options : ParseOptions) : Option (Except ParseError Block) := do
  Tokens.parse (← Tokens.ofSource source options.skipShebang) options.chunkName options.maxDepth


-- ---------------------------------------------------------------------------
-- Layout
-- ---------------------------------------------------------------------------

namespace Layout

/-- The segments of a path from the one at an index on. The last one of a method has a colon before
it. -/
def segments (isMethod : Bool) (last : Nat) : List Name → Nat → List Piece → List Piece
  | [], _, k => k
  | n :: ns, i, k =>
    let rest := .name n.text :: segments isMethod last ns (i + 1) k
    if i > 0 then .symbol (if isMethod && i == last then .colon else .dot) :: rest else rest

def functionName (f : FunctionName) (k : List Piece) : Option (List Piece) := do
  let last ← minus? f.path.length 1
  return segments f.isMethod last f.path 0 k

end Layout

end LuaSource.Checked
