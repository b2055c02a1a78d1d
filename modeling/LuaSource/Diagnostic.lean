-- SUMMARY: What can keep a source from being parsed, and the diagnostics handed on to tools.
import LuaSource.Lexeme.Scan

/-!
# Parse errors and diagnostics

A parse ends with the first error. Messages quote the token that it is about, or for a
lexical error what was read of the lexeme.

Tools are handed the error as a diagnostic. A sink collects the diagnostics of any number of sources
in the order of their reports.
-/

namespace LuaSource

inductive ParseFault
  /-- A lexeme could not be read. -/
  | lexical (cause : LexError)
  | expected (wanted near : String)
  /-- What closes a construct is missing, and the construct was opened on an earlier line. -/
  | unclosed (wanted opener : String) (openerLine : Nat) (near : String)
  /-- A token that cannot begin what has to come. -/
  | unexpectedSymbol (near : String)
  | malformedNumber (near : String)
  /-- Arguments that begin on a new line could as well be a statement of their own. -/
  | ambiguousCall (near : String)
  /-- A call or an expression in parentheses cannot be assigned to. -/
  | invalidTarget (near : String)
  /-- An expression in parentheses is not a statement. -/
  | notACall (near : String)
  | tooManyLevels (near : String)
  | expectedEither (first second near : String)
  /-- A method name without arguments. -/
  | missingArguments (near : String)
deriving DecidableEq

namespace ParseFault

def code : ParseFault → Nat
  | lexical cause => cause.code
  | expected .. => 201
  | unclosed .. => 202
  | unexpectedSymbol _ => 203
  | malformedNumber _ => 204
  | ambiguousCall _ => 205
  | invalidTarget _ => 206
  | notACall _ => 207
  | tooManyLevels _ => 208
  | expectedEither .. => 209
  | missingArguments _ => 210

def message : ParseFault → String
  | lexical cause => cause.message
  | expected wanted near => s!"'{wanted}' expected near '{near}'"
  | unclosed wanted opener line near =>
    s!"'{wanted}' expected (to close '{opener}' at line {line}) near '{near}'"
  | unexpectedSymbol near => s!"unexpected symbol near '{near}'"
  | malformedNumber near => s!"malformed number near '{near}'"
  | ambiguousCall near => s!"ambiguous syntax (function call x new statement) near '{near}'"
  | invalidTarget near => s!"syntax error near '{near}'"
  | notACall near => s!"syntax error near '{near}'"
  | tooManyLevels near => s!"chunk has too many syntax levels near '{near}'"
  | expectedEither first second near => s!"'{first}' or '{second}' expected near '{near}'"
  | missingArguments near => s!"function arguments expected near '{near}'"

end ParseFault


-- ---------------------------------------------------------------------------
-- Errors of a chunk
-- ---------------------------------------------------------------------------

/-- A fault in a source that goes by a name. -/
structure ParseError extends Located ParseFault where
  chunkName : String
deriving DecidableEq

namespace ParseError

def code (e : ParseError) : Nat := e.cause.code

def message (e : ParseError) : String := messageAt e.cause.message e.span.start

/-- The message with the name of the chunk before it. -/
def render (e : ParseError) : String := e.chunkName ++ ": " ++ e.message

end ParseError


-- ---------------------------------------------------------------------------
-- Diagnostics
-- ---------------------------------------------------------------------------

/-- The graver of two is the greater one. -/
inductive Severity
  | warning
  | error
deriving DecidableEq, Ord

namespace Severity

instance : LE Severity := leOfOrd
instance : Max Severity := maxOfLe

def spelling : Severity → String
  | warning => "warning"
  | error => "error"

end Severity

structure Diagnostic where
  message : String
  span : Span
  code : Nat
  severity : Severity
  chunkName : String
deriving DecidableEq

def Diagnostic.render (d : Diagnostic) : String :=
  s!"{d.chunkName}: {d.severity.spelling}[{d.code}]: {d.message}"

def ParseError.toDiagnostic (e : ParseError) : Diagnostic where
  message := e.message
  span := e.span
  code := e.code
  severity := .error
  chunkName := e.chunkName


-- ---------------------------------------------------------------------------
-- Sinks
-- ---------------------------------------------------------------------------

structure Sink where
  reports : List Diagnostic := []
deriving DecidableEq

namespace Sink

def report (s : Sink) (d : Diagnostic) : Sink := ⟨s.reports ++ [d]⟩

/-- The gravest severity in a sink. -/
def worst? (s : Sink) : Option Severity := (s.reports.map (·.severity)).max?

@[simp] theorem reports_report (s : Sink) (d : Diagnostic) :
    (s.report d).reports = s.reports ++ [d] := rfl

end Sink

end LuaSource
