-- SUMMARY: Parsing a source text: the result alone, with its log, or reported to a sink.
import LuaSource.Diagnostic
import LuaSource.Grammar.Statement

/-!
# Chunks

A chunk is a source text that goes by a name. Its tokens are read first, and parsed up to
the first fault. The name plays no part in either: it is attached to the fault.

A parse is a function of the source and the options. The thread that it may run on, whose stack is
sized for the greatest depth, has no part in what it gives.
-/

namespace LuaSource

structure ParseOptions where
  /-- The name of the source in messages. -/
  chunkName : String := "<unknown>"
  /-- The greatest depth that is accepted: how far blocks and expressions are nested. -/
  maxDepth : Nat := 200
  /-- Whether a first line that starts with `#` is passed over. -/
  skipShebang : Bool := false
deriving DecidableEq, Inhabited


-- ---------------------------------------------------------------------------
-- Sources
-- ---------------------------------------------------------------------------

/-- The tokens of a source text. -/
def Tokens.ofSource (source : String) (skipShebang : Bool) : Tokens :=
  let start := Place.ofText source.toList
  Tokens.ofPlace (if skipShebang then start.skipShebang else start)

/-- The tree of a token sequence. -/
def Tokens.parse (ts : Tokens) (maxDepth : Nat) : Except (Located ParseFault) Block := do
  let w ← Window.ofTokens ts
  let (block, _) ← Grammar.chunk (Level.ofDepth maxDepth) w
  return block

/-- The tree of a source text, or the fault that it has first. -/
def parse (source : String) (options : ParseOptions := {}) : Except ParseError Block :=
  ((Tokens.ofSource source options.skipShebang).parse options.maxDepth).mapError fun fault =>
    { fault with chunkName := options.chunkName }


-- ---------------------------------------------------------------------------
-- Logged and reported
-- ---------------------------------------------------------------------------

/-- What a log says before a parse. -/
def startRecord (source : String) (options : ParseOptions) : LogRecord :=
  ⟨.debug, s!"parsing chunk {options.chunkName} ({source.utf8ByteSize} bytes)"⟩

/-- What a log says after a parse. -/
def outcomeRecord (options : ParseOptions) : Except ParseError Block → LogRecord
  | .ok block =>
    ⟨.debug, s!"parsed chunk {options.chunkName}: {block.statements.length} statements"⟩
  | .error e => ⟨.debug, s!"parse failed [{e.code}]: {e.render}"⟩

/-- Parse a source text and log it. -/
def parseLogged (source : String) (options : ParseOptions := {}) :
    Except ParseError Block × List LogRecord :=
  let result := parse source options
  (result, [startRecord source options, outcomeRecord options result])

/-- Parse a source text and report its fault to a sink. -/
def parseReporting (source : String) (options : ParseOptions) (sink : Sink) :
    Except ParseError Block × Sink :=
  match parse source options with
  | .ok block => (.ok block, sink)
  | .error e => (.error e, sink.report e.toDiagnostic)

/-- Parse source texts one after the other, with one sink for the faults of all. -/
def parseAllReporting :
    List (String × ParseOptions) → Sink → List (Except ParseError Block) × Sink
  | [], sink => ([], sink)
  | (source, options) :: sources, sink =>
    let (result, sink) := parseReporting source options sink
    let (results, sink) := parseAllReporting sources sink
    (result :: results, sink)

end LuaSource
