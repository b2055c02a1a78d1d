-- SUMMARY: The grammar of expressions, of what calls and indexes are made of, and of functions.
import LuaSource.Grammar.Parse
import LuaSource.Numeral

/-!
# Grammar of expressions

The productions are given relative to the level inside them: every block and every operand
that is nested in a construct is parsed by `Nested`, so that no production refers to itself.
Binary operators are folded onto the operand to their left for as long as their left power
exceeds the limit that holds there.
-/

namespace LuaSource

/-- How the blocks and operands nested in a construct are parsed. -/
structure Nested (m : Type → Type) where
  /-- Statements up to the end of the source or one of the given symbols. -/
  block : List Symbol → m Block
  /-- An operand with all operators behind it that bind tighter than the given limit. -/
  operand : Nat → m Expression

namespace Grammar

open Parse Parsing

variable {m : Type → Type} [Monad m] [Parsing m]

def expression (inner : Nested m) : m Expression := inner.operand 0

def expressionList (inner : Nested m) : m (List Expression) := commaList (expression inner)


-- ---------------------------------------------------------------------------
-- Functions
-- ---------------------------------------------------------------------------

/-- Read one parameter, `names` being those before it with the last one first. The varargs mark
ends the list. -/
def parameterStep (names : List Name) : m (List Name ⊕ List Name × Bool) := do
  match ← accept .ellipsis with
  | some _ => return .inr (names.reverse, true)
  | none =>
    let name ← expectName
    match ← accept .comma with
    | some _ => return .inl (name :: names)
    | none => return .inr ((name :: names).reverse, false)

/-- `(a, b, ...) block end`, from behind `function` and what it is called. -/
def functionBody (inner : Nested m) (functionLine : Nat) : m FunctionBody := do
  let opening ← expect .leftParen
  let (parameters, hasVarargs) ←
    if (← symbol) = .rightParen then pure ([], false) else loop parameterStep []
  let _ ← expect .rightParen
  let body ← inner.block [.kwEnd]
  let closing ← expectClosing .kwEnd .kwFunction functionLine
  return ⟨parameters, hasVarargs, body, Span.between opening.span closing.span⟩


-- ---------------------------------------------------------------------------
-- Tables
-- ---------------------------------------------------------------------------

/-- `[key] = value`, `name = value` or a value alone. A name is a key only if `=` follows it. -/
def field (inner : Nested m) : m Field := do
  match ← symbol with
  | .leftBracket =>
    let opening ← consume
    let key ← expression inner
    let _ ← expect .rightBracket
    let _ ← expect .assign
    let value ← expression inner
    return .keyed key value (Span.between opening.span value.span)
  | .name =>
    if (← followingSymbol) = .assign then
      let name ← expectName
      let _ ← consume
      let value ← expression inner
      return .named name value (Span.between name.span value.span)
    else return .positional (← expression inner)
  | _ => return .positional (← expression inner)

/-- Take what separates two fields, if it is there. -/
def acceptSeparator : m Bool := do
  match ← accept .comma with
  | some _ => return true
  | none => return (← accept .semicolon).isSome

/-- Read one field, `fields` being those before it with the last one first. A separator may
stand behind the last field as well. -/
def fieldStep (inner : Nested m) (fields : List Field) : m (List Field ⊕ List Field) := do
  if (← symbol) = .rightBrace then return .inr fields.reverse
  else
    let f ← field inner
    if ← acceptSeparator then return .inl (f :: fields) else return .inr (f :: fields).reverse

def table (inner : Nested m) : m Table := do
  let opening ← expect .leftBrace
  let fields ← loop (fieldStep inner) []
  let closing ← expectClosing .rightBrace .leftBrace opening.span.start.line
  return ⟨fields, Span.between opening.span closing.span⟩


-- ---------------------------------------------------------------------------
-- Names, calls and indexes
-- ---------------------------------------------------------------------------

/-- Arguments in parentheses have to begin on the line on which the callee ends. -/
def arguments (inner : Nested m) : m Arguments := do
  match ← symbol with
  | .leftParen =>
    if ← onSameLine then
      let opening ← consume
      let values ← if (← symbol) = .rightParen then pure [] else expressionList inner
      let closing ← expectClosing .rightParen .leftParen opening.span.start.line
      return .list values (Span.between opening.span closing.span)
    else fail .ambiguousCall
  | .leftBrace => return .table (← table inner)
  | .string =>
    let token ← consume
    return .string (← content token) token.span
  | _ => fail .missingArguments

/-- A name, or an expression in parentheses. -/
def primaryHead (inner : Nested m) : m Primary := do
  match ← symbol with
  | .name => return .var (.name (← expectName))
  | .leftParen =>
    let opening ← consume
    let e ← expression inner
    let closing ← expectClosing .rightParen .leftParen opening.span.start.line
    return .parenthesized e (Span.between opening.span closing.span)
  | _ => fail .unexpectedSymbol

/-- Go on with a member, an index or arguments, if one of them follows. -/
def suffixStep (inner : Nested m) (p : Primary) : m (Primary ⊕ Primary) := do
  match ← symbol with
  | .dot =>
    let _ ← consume
    let name ← expectName
    return .inl (.var (.member p name (Span.between p.span name.span)))
  | .leftBracket =>
    let _ ← consume
    let key ← expression inner
    let closing ← expect .rightBracket
    return .inl (.var (.index p key (Span.between p.span closing.span)))
  | .colon =>
    let _ ← consume
    let name ← expectName
    let args ← arguments inner
    return .inl (.call (.method p name args (Span.between p.span args.span)))
  | .leftParen | .string | .leftBrace =>
    let args ← arguments inner
    return .inl (.call (.function p args (Span.between p.span args.span)))
  | _ => return .inr p

def primary (inner : Nested m) : m Primary := do
  loop (suffixStep inner) (← primaryHead inner)


-- ---------------------------------------------------------------------------
-- Operands and operators
-- ---------------------------------------------------------------------------

def number : m Expression := do
  let token ← current
  match Numeral.value? (← content token) with
  | some value =>
    let _ ← consume
    return .number value token.span
  | none => fail .malformedNumber

/-- An operand without the binary operators behind it. -/
def simpleOperand (inner : Nested m) : m Expression := do
  let token ← current
  match UnaryOperator.ofSymbol? token.symbol with
  | some op =>
    let _ ← consume
    let e ← inner.operand UnaryOperator.power
    return .unary op e (Span.between token.span e.span)
  | none =>
    match token.symbol with
    | .kwNil => return .nil (← consume).span
    | .kwTrue => return .boolean true (← consume).span
    | .kwFalse => return .boolean false (← consume).span
    | .ellipsis => return .varargs (← consume).span
    | .number => number
    | .string =>
      let _ ← consume
      return .string (← content token) token.span
    | .kwFunction =>
      let _ ← consume
      let body ← functionBody inner token.span.start.line
      return .function body (Span.between token.span body.span)
    | .leftBrace => return .table (← table inner)
    | .name | .leftParen => return .primary (← primary inner)
    | _ => fail .unexpectedSymbol

/-- Fold one more operator onto the operand to its left, if it binds tighter than the limit. -/
def operatorStep (inner : Nested m) (limit : Nat) (left : Expression) :
    m (Expression ⊕ Expression) := do
  match BinaryOperator.ofSymbol? (← symbol) with
  | some op =>
    if op.leftPower ≤ limit then return .inr left
    else
      let _ ← consume
      let right ← inner.operand op.rightPower
      return .inl (.binary op left right (Span.between left.span right.span))
  | none => return .inr left

def operand (inner : Nested m) (limit : Nat) : m Expression := do
  loop (operatorStep inner limit) (← simpleOperand inner)

end Grammar

end LuaSource
