-- SUMMARY: The tree of a source text: blocks, statements, expressions and their parts.
import LuaSource.Double.Basic
import LuaSource.Operator
import LuaSource.Text.Position

/-!
# Trees

Every node carries the span of the source it stands for: from the start of its first token
to the end of its last. A node that adds nothing to another one has the span of that one.
-/

namespace LuaSource

/-- A name where it occurs. -/
structure Name where
  text : String
  span : Span
deriving DecidableEq

/-- What `function a.b.c` or `function a.b:c` defines. A method has its last name behind the
colon, so that there are two names at least. -/
structure FunctionName where
  path : List Name
  isMethod : Bool
  span : Span
deriving DecidableEq

mutual

/-- Statements in order. The block that is a whole source is the root of its tree. -/
structure Block where
  statements : List Statement
  span : Span

inductive Statement
  /-- `a, b.c = x, y` -/
  | assign (targets : List Variable) (values : List Expression) (span : Span)
  /-- `local a, b = x, y`, or without values `local a, b`. -/
  | localAssign (names : List Name) (values : List Expression) (span : Span)
  | call (call : Call)
  | doBlock (body : Block) (span : Span)
  | whileLoop (condition : Expression) (body : Block) (span : Span)
  | repeatLoop (body : Block) (condition : Expression) (span : Span)
  /-- `if` with its first clause, one more clause for each `elseif`, and `else`. -/
  | conditional (clauses : List Clause) (otherwise : Option Block) (span : Span)
  /-- `for i = start, limit, step do` -/
  | numericFor (counter : Name) (start limit : Expression) (step : Option Expression)
      (body : Block) (span : Span)
  /-- `for a, b in x, y do` -/
  | genericFor (names : List Name) (values : List Expression) (body : Block) (span : Span)
  | function (name : FunctionName) (body : FunctionBody) (span : Span)
  | localFunction (name : Name) (body : FunctionBody) (span : Span)
  | label (name : Name) (span : Span)
  | jump (label : Name) (span : Span)
  | returnValues (values : List Expression) (span : Span)
  | breakLoop (span : Span)

/-- A condition with the block that it guards. -/
structure Clause where
  condition : Expression
  body : Block
  span : Span

inductive Expression
  | nil (span : Span)
  | boolean (value : Bool) (span : Span)
  | number (value : Double) (span : Span)
  | string (value : String) (span : Span)
  | varargs (span : Span)
  | function (body : FunctionBody) (span : Span)
  | primary (primary : Primary)
  | table (table : Table)
  | binary (op : BinaryOperator) (left right : Expression) (span : Span)
  | unary (op : UnaryOperator) (operand : Expression) (span : Span)

/-- What a member, an index or arguments may follow. -/
inductive Primary
  | var (target : Variable)
  | call (call : Call)
  | parenthesized (inner : Expression) (span : Span)

/-- What can be assigned to. -/
inductive Variable
  | name (name : Name)
  /-- `base[key]` -/
  | index (base : Primary) (key : Expression) (span : Span)
  /-- `base.name` -/
  | member (base : Primary) (name : Name) (span : Span)

inductive Call
  /-- `callee(...)` -/
  | function (callee : Primary) (arguments : Arguments) (span : Span)
  /-- `receiver:name(...)` -/
  | method (receiver : Primary) (name : Name) (arguments : Arguments) (span : Span)

inductive Arguments
  | list (values : List Expression) (span : Span)
  /-- A table constructor alone, without parentheses. -/
  | table (table : Table)
  /-- A string alone, without parentheses. -/
  | string (value : String) (span : Span)

structure Table where
  fields : List Field
  span : Span

inductive Field
  /-- `[key] = value` -/
  | keyed (key value : Expression) (span : Span)
  /-- `name = value` -/
  | named (name : Name) (value : Expression) (span : Span)
  | positional (value : Expression)

/-- Parameters and statements, without what the function is called. -/
structure FunctionBody where
  parameters : List Name
  hasVarargs : Bool
  body : Block
  span : Span

end

instance : Inhabited Block := ⟨⟨[], default⟩⟩


-- ---------------------------------------------------------------------------
-- Spans
-- ---------------------------------------------------------------------------

def Call.span : Call → Span
  | .function _ _ span | .method _ _ _ span => span

def Variable.span : Variable → Span
  | .name n => n.span
  | .index _ _ span | .member _ _ span => span

def Primary.span : Primary → Span
  | .var v => v.span
  | .call c => c.span
  | .parenthesized _ span => span

def Arguments.span : Arguments → Span
  | .table t => t.span
  | .list _ span | .string _ span => span

def Expression.span : Expression → Span
  | .primary p => p.span
  | .table t => t.span
  | .nil span | .boolean _ span | .number _ span | .string _ span | .varargs span
  | .function _ span | .binary _ _ _ span | .unary _ _ span => span

def Field.span : Field → Span
  | .positional value => value.span
  | .keyed _ _ span | .named _ _ span => span

def Statement.span : Statement → Span
  | .call c => c.span
  | .assign _ _ span | .localAssign _ _ span | .doBlock _ span | .whileLoop _ _ span
  | .repeatLoop _ _ span | .conditional _ _ span | .numericFor _ _ _ _ _ span
  | .genericFor _ _ _ span | .function _ _ span | .localFunction _ _ span | .label _ span
  | .jump _ span | .returnValues _ span | .breakLoop span => span


-- ---------------------------------------------------------------------------
-- The end of a block
-- ---------------------------------------------------------------------------

/-- Nothing may follow a `return` or a `break` in its block. -/
def Statement.isLast : Statement → Bool
  | .returnValues .. | .breakLoop _ => true
  | _ => false

/-- The `return` or `break` that a block ends with. -/
def Block.lastStatement? (b : Block) : Option Statement :=
  b.statements.getLast?.filter Statement.isLast


-- ---------------------------------------------------------------------------
-- Leading parentheses
-- ---------------------------------------------------------------------------

mutual

def Primary.startsWithParen : Primary → Bool
  | .parenthesized .. => true
  | .var t => t.startsWithParen
  | .call c => c.startsWithParen

def Variable.startsWithParen : Variable → Bool
  | .name _ => false
  | .index base .. | .member base .. => base.startsWithParen

def Call.startsWithParen : Call → Bool
  | .function callee .. => callee.startsWithParen
  | .method receiver .. => receiver.startsWithParen

end

/-- Whether a statement is written with a parenthesis first. On a line of its own it would be taken
for the arguments of a call that the line before ends with. -/
def Statement.startsWithParen : Statement → Bool
  | .assign (t :: _) .. => t.startsWithParen
  | .call c => c.startsWithParen
  | _ => false

end LuaSource
