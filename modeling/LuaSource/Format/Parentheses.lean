-- SUMMARY: Putting the operands of a tree into parentheses where they need them.
import LuaSource.Tree

/-!
# Parentheses

An operand is put into parentheses where an operator in it would otherwise be taken over by
the operator around it. In the tree that results, parentheses stand wherever the text of the
tree has them.
-/

namespace LuaSource

-- ---------------------------------------------------------------------------
-- Operands
-- ---------------------------------------------------------------------------

namespace Expression

/-- To the left of a binary operator. What a looser operator to the left ends with would be
taken away from it. -/
def needsParensBefore (op : BinaryOperator) : Expression → Bool
  | binary inner .. => inner.rightPower < op.leftPower
  | unary .. => UnaryOperator.power < op.leftPower
  | _ => false

/-- Behind an operator that offers a limit. -/
def needsParensBehind (limit : Nat) : Expression → Bool
  | binary inner .. => inner.leftPower ≤ limit
  | _ => false

def inParens (e : Expression) : Expression := .primary (.parenthesized e e.span)

def inParensIf (needed : Bool) (e : Expression) : Expression := if needed then e.inParens else e

@[simp] theorem span_inParens (e : Expression) : e.inParens.span = e.span := rfl

@[simp] theorem span_inParensIf (needed : Bool) (e : Expression) :
    (e.inParensIf needed).span = e.span := by
  cases needed <;> rfl

@[simp] theorem needsParensBefore_inParens (op : BinaryOperator) (e : Expression) :
    e.inParens.needsParensBefore op = false := rfl

@[simp] theorem needsParensBehind_inParens (limit : Nat) (e : Expression) :
    e.inParens.needsParensBehind limit = false := rfl

end Expression


-- ---------------------------------------------------------------------------
-- Trees
-- ---------------------------------------------------------------------------

namespace Parens

mutual

def block : Block → Block
  | ⟨ss, span⟩ => ⟨statements ss, span⟩

def statements : List Statement → List Statement
  | [] => []
  | s :: ss => statement s :: statements ss

def statement : Statement → Statement
  | .assign ts es span => .assign (targets ts) (expressions es) span
  | .localAssign names es span => .localAssign names (expressions es) span
  | .call c => .call (call c)
  | .doBlock b span => .doBlock (block b) span
  | .whileLoop condition b span => .whileLoop (expression condition) (block b) span
  | .repeatLoop b condition span => .repeatLoop (block b) (expression condition) span
  | .conditional cs otherwise span =>
    let otherwise := match otherwise with
      | none => none
      | some b => some (block b)
    .conditional (clauses cs) otherwise span
  | .numericFor counter start limit step b span =>
    let step := match step with
      | none => none
      | some e => some (expression e)
    .numericFor counter (expression start) (expression limit) step (block b) span
  | .genericFor names es b span => .genericFor names (expressions es) (block b) span
  | .function name body span => .function name (functionBody body) span
  | .localFunction name body span => .localFunction name (functionBody body) span
  | .label name span => .label name span
  | .jump label span => .jump label span
  | .returnValues es span => .returnValues (expressions es) span
  | .breakLoop span => .breakLoop span

def clauses : List Clause → List Clause
  | [] => []
  | ⟨condition, b, span⟩ :: cs => ⟨expression condition, block b, span⟩ :: clauses cs

def functionBody : FunctionBody → FunctionBody
  | ⟨parameters, hasVarargs, b, span⟩ => ⟨parameters, hasVarargs, block b, span⟩

def expression : Expression → Expression
  | .nil span => .nil span
  | .boolean value span => .boolean value span
  | .number value span => .number value span
  | .string value span => .string value span
  | .varargs span => .varargs span
  | .function body span => .function (functionBody body) span
  | .primary p => .primary (primary p)
  | .table t => .table (table t)
  | .binary op left right span =>
    .binary op
      ((expression left).inParensIf (left.needsParensBefore op))
      ((expression right).inParensIf (right.needsParensBehind op.rightPower)) span
  | .unary op operand span =>
    .unary op ((expression operand).inParensIf (operand.needsParensBehind UnaryOperator.power)) span

def expressions : List Expression → List Expression
  | [] => []
  | e :: es => expression e :: expressions es

def primary : Primary → Primary
  | .var t => .var (target t)
  | .call c => .call (call c)
  | .parenthesized e span => .parenthesized (expression e) span

def target : Variable → Variable
  | .name name => .name name
  | .index base key span => .index (primary base) (expression key) span
  | .member base name span => .member (primary base) name span

def targets : List Variable → List Variable
  | [] => []
  | t :: ts => target t :: targets ts

def call : Call → Call
  | .function callee args span => .function (primary callee) (arguments args) span
  | .method receiver name args span => .method (primary receiver) name (arguments args) span

def arguments : Arguments → Arguments
  | .list es span => .list (expressions es) span
  | .table t => .table (table t)
  | .string value span => .string value span

def table : Table → Table
  | ⟨fs, span⟩ => ⟨fields fs, span⟩

def fields : List Field → List Field
  | [] => []
  | f :: fs => field f :: fields fs

def field : Field → Field
  | .keyed key value span => .keyed (expression key) (expression value) span
  | .named name value span => .named name (expression value) span
  | .positional value => .positional (expression value)

end

end Parens

end LuaSource
