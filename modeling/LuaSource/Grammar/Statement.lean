-- SUMMARY: The grammar of statements and blocks.
import LuaSource.Grammar.Expression

/-!
# Grammar of statements

The first token of a statement says which kind it is. What begins with a name or a
parenthesis is an assignment if `=` or a comma comes behind it, and else has to be a call.
-/

namespace LuaSource

namespace Grammar

section Productions

open Parse Parsing

variable {m : Type → Type} [Monad m] [Parsing m]

-- ---------------------------------------------------------------------------
-- Loops and conditions
-- ---------------------------------------------------------------------------

def doBlock (inner : Nested m) : m Statement := do
  let opening ← consume
  let body ← inner.block [.kwEnd]
  let closing ← expectClosing .kwEnd .kwDo opening.span.start.line
  return .doBlock body (Span.between opening.span closing.span)

def whileLoop (inner : Nested m) : m Statement := do
  let opening ← consume
  let condition ← expression inner
  let _ ← expect .kwDo
  let body ← inner.block [.kwEnd]
  let closing ← expectClosing .kwEnd .kwWhile opening.span.start.line
  return .whileLoop condition body (Span.between opening.span closing.span)

def repeatLoop (inner : Nested m) : m Statement := do
  let opening ← consume
  let body ← inner.block [.kwUntil]
  let _ ← expectClosing .kwUntil .kwRepeat opening.span.start.line
  let condition ← expression inner
  return .repeatLoop body condition (Span.between opening.span condition.span)

/-- A condition and its block, from behind `if` or `elseif`. If the block is empty, the clause
ends with its `then`. -/
def clause (inner : Nested m) (keyword : Span) : m Clause := do
  let condition ← expression inner
  let thenToken ← expect .kwThen
  let body ← inner.block [.kwElse, .kwElseif, .kwEnd]
  let last := if body.statements.isEmpty then thenToken.span else body.span
  return ⟨condition, body, Span.between keyword last⟩

def conditional (inner : Nested m) : m Statement := do
  let opening ← consume
  let first ← clause inner opening.span
  let clauses ← separated .kwElseif (fun keyword => clause inner keyword.span) first
  let otherwise ← match ← accept .kwElse with
    | some _ => some <$> inner.block [.kwEnd]
    | none => pure none
  let closing ← expectClosing .kwEnd .kwIf opening.span.start.line
  return .conditional clauses otherwise (Span.between opening.span closing.span)

/-- `do block end` behind the head of a `for`. -/
def forBody (inner : Nested m) (forLine : Nat) : m (Block × Token) := do
  let _ ← expect .kwDo
  let body ← inner.block [.kwEnd]
  let closing ← expectClosing .kwEnd .kwFor forLine
  return (body, closing)

def numericFor (inner : Nested m) (opening : Span) : m Statement := do
  let counter ← expectName
  let _ ← expect .assign
  let start ← expression inner
  let _ ← expect .comma
  let limit ← expression inner
  let step ← match ← accept .comma with
    | some _ => some <$> expression inner
    | none => pure none
  let (body, closing) ← forBody inner opening.start.line
  return .numericFor counter start limit step body (Span.between opening closing.span)

def genericFor (inner : Nested m) (opening : Span) : m Statement := do
  let names ← commaList expectName
  let _ ← expect .kwIn
  let values ← expressionList inner
  let (body, closing) ← forBody inner opening.start.line
  return .genericFor names values body (Span.between opening closing.span)

/-- What comes behind the first name decides between the two kinds of `for`. -/
def forLoop (inner : Nested m) : m Statement := do
  let opening ← consume
  if (← symbol) = .name then
    match ← followingSymbol with
    | .assign => numericFor inner opening.span
    | .comma | .kwIn => genericFor inner opening.span
    | _ =>
      let _ ← consume
      fail (.expectedEither Symbol.assign.spelling Symbol.kwIn.spelling)
  else fail (.expected Symbol.name.spelling)


-- ---------------------------------------------------------------------------
-- Functions and local variables
-- ---------------------------------------------------------------------------

/-- The span of a path from its first segment to its last. -/
def pathSpan (path : List Name) (first last : Name) : m Span := do
  return Span.between (← check path[0]? first).span (← check (last? path) last).span

def functionName : m FunctionName := do
  let first ← expectName
  let path ← separated .dot (fun _ => expectName) first
  match ← accept .colon with
  | some _ =>
    let method ← expectName
    let path := path ++ [method]
    return ⟨path, true, ← pathSpan path first method⟩
  | none => return ⟨path, false, ← pathSpan path first (path.getLast?.getD first)⟩

def functionStatement (inner : Nested m) : m Statement := do
  let opening ← consume
  let name ← functionName
  let body ← functionBody inner opening.span.start.line
  return .function name body (Span.between opening.span body.span)

/-- Where names with values end. Without values, that is behind the last name. -/
def lastSpan (opening : Span) (names : List Name) (values : List Expression) : m Span :=
  let last := values.getLast?.map (·.span)
  check (last.or ((last? names).map (·.span)))
    (last.getD ((names.getLast?.map (·.span)).getD opening))

def localAssign (inner : Nested m) (opening : Span) : m Statement := do
  let names ← commaList expectName
  let values ← match ← accept .assign with
    | some _ => expressionList inner
    | none => pure []
  return .localAssign names values (Span.between opening (← lastSpan opening names values))

def localStatement (inner : Nested m) : m Statement := do
  let opening ← consume
  match ← accept .kwFunction with
  | some keyword =>
    let name ← expectName
    let body ← functionBody inner keyword.span.start.line
    return .localFunction name body (Span.between opening.span body.span)
  | none => localAssign inner opening.span


-- ---------------------------------------------------------------------------
-- Jumps
-- ---------------------------------------------------------------------------

def labelStatement : m Statement := do
  let opening ← consume
  let name ← expectName
  let closing ← expect .doubleColon
  return .label name (Span.between opening.span closing.span)

def jumpStatement : m Statement := do
  let opening ← consume
  let label ← expectName
  return .jump label (Span.between opening.span label.span)

/-- Symbols before which `return` gives no values. -/
def endsValues : List Symbol := [.kwElse, .kwElseif, .kwEnd, .kwUntil, .eof, .semicolon]

def returnStatement (inner : Nested m) : m Statement := do
  let keyword ← consume
  let values ← if (← symbol) ∈ endsValues then pure [] else expressionList inner
  let _ ← accept .semicolon
  let last := (values.getLast?.map (·.span)).getD keyword.span
  return .returnValues values (Span.between keyword.span last)

def breakStatement : m Statement := do
  let keyword ← consume
  let _ ← accept .semicolon
  return .breakLoop keyword.span


-- ---------------------------------------------------------------------------
-- Assignments and calls
-- ---------------------------------------------------------------------------

/-- The variable that a primary expression is, if it can be assigned to. -/
def target : Primary → m Variable
  | .var v => pure v
  | _ => fail .invalidTarget

def nextTarget (inner : Nested m) : m Variable := do
  target (← primary inner)

def assign (inner : Nested m) (first : Variable) : m Statement := do
  let targets ← separated .comma (fun _ => nextTarget inner) first
  let _ ← expect .assign
  let values ← expressionList inner
  let start ← check (targets[0]?.map (·.span)) first.span
  let last ← check ((last? values).map (·.span)) ((values.getLast?.map (·.span)).getD first.span)
  return .assign targets values (Span.between start last)

def assignOrCall (inner : Nested m) : m Statement := do
  let p ← primary inner
  match ← symbol with
  | .assign | .comma => assign inner (← target p)
  | _ =>
    match p with
    | .call c => return .call c
    | .var _ => fail (.expected Symbol.assign.spelling)
    | .parenthesized .. => fail .notACall


-- ---------------------------------------------------------------------------
-- Blocks
-- ---------------------------------------------------------------------------

/-- A statement that others may follow. -/
def statement (inner : Nested m) : m Statement := do
  match ← symbol with
  | .kwIf => conditional inner
  | .kwWhile => whileLoop inner
  | .kwDo => doBlock inner
  | .kwFor => forLoop inner
  | .kwRepeat => repeatLoop inner
  | .kwFunction => functionStatement inner
  | .kwLocal => localStatement inner
  | .doubleColon => labelStatement
  | .kwGoto => jumpStatement
  | _ => assignOrCall inner

/-- Go on with a statement, `statements` being those before it with the last one first. -/
def statementStep (inner : Nested m) (terminators : List Symbol) (statements : List Statement) :
    m (List Statement ⊕ List Statement) := do
  let s ← symbol
  if s = .eof ∨ s ∈ terminators then return .inr statements.reverse
  else
    match s with
    | .semicolon =>
      let _ ← consume
      return .inl statements
    | .kwReturn => return .inr ((← returnStatement inner) :: statements).reverse
    | .kwBreak => return .inr ((← breakStatement) :: statements).reverse
    | _ => return .inl ((← statement inner) :: statements)

/-- The span of a block, or the place where an empty one stands. -/
def blockSpan (start : Position) (statements : List Statement) : Span :=
  match statements.head?, statements.getLast? with
  | some first, some last => Span.between first.span last.span
  | _, _ => Span.empty start

def block (inner : Nested m) (terminators : List Symbol) : m Block := do
  let start := (← current).span.start
  let statements ← loop (statementStep inner terminators) []
  return ⟨statements, blockSpan start statements⟩

/-- A block that the end of the source has to follow. -/
def chunk (inner : Nested m) : m Block := do
  let b ← inner.block []
  if (← symbol) = .eof then return b else fail (.expected Symbol.eof.spelling)

end Productions

end Grammar


-- ---------------------------------------------------------------------------
-- Levels
-- ---------------------------------------------------------------------------

abbrev Level := Nested Parse

namespace Level

/-- A level parses blocks and operands whose own parts are parsed by the level below. With no level
left, nothing is parsed any more. So the number of levels limits how far a source may nest, and is
what the recursion of the grammar runs on. -/
def ofDepth : Nat → Level
  | 0 =>
    { block := fun _ => Parsing.fail .tooManyLevels
      operand := fun _ => Parsing.fail .tooManyLevels }
  | depth + 1 =>
    { block := fun terminators => Grammar.block (ofDepth depth) terminators
      operand := fun limit => Grammar.operand (ofDepth depth) limit }

@[simp] theorem block_zero (terminators : List Symbol) :
    (ofDepth 0).block terminators = Parsing.fail .tooManyLevels := rfl

@[simp] theorem operand_zero (limit : Nat) :
    (ofDepth 0).operand limit = Parsing.fail .tooManyLevels := rfl

@[simp] theorem block_succ (depth : Nat) (terminators : List Symbol) :
    (ofDepth (depth + 1)).block terminators = Grammar.block (ofDepth depth) terminators := rfl

@[simp] theorem operand_succ (depth limit : Nat) :
    (ofDepth (depth + 1)).operand limit = Grammar.operand (ofDepth depth) limit := rfl

end Level

end LuaSource
