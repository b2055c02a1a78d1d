-- SUMMARY: Visitors, which go over a tree and decide at each node how to go on.
import LuaSource.Tree

/-!
# Visitors

A visitor has one hook for each kind of node. A hook is given the node, the way over the
parts of the node, and the state so far; it gives the state afterwards. The default is to
take the way, so that a visitor says only what it does differently. The parts of a node
come in the order of the source.
-/

namespace LuaSource

/-- What a visitor does at a node of type `α`. -/
abbrev Hook (α σ : Type) := α → (σ → σ) → σ → σ

def Hook.descend {α σ : Type} : Hook α σ := fun _ walk => walk

structure Visitor (σ : Type) where
  block : Hook Block σ := Hook.descend
  statement : Hook Statement σ := Hook.descend
  expression : Hook Expression σ := Hook.descend
  primary : Hook Primary σ := Hook.descend
  target : Hook Variable σ := Hook.descend
  call : Hook Call σ := Hook.descend
  arguments : Hook Arguments σ := Hook.descend
  field : Hook Field σ := Hook.descend
  functionBody : Hook FunctionBody σ := Hook.descend
  /-- A name has no parts. -/
  name : Name → σ → σ := fun _ => id

namespace Visitor

variable {σ : Type}

def visitNames (v : Visitor σ) (names : List Name) (s : σ) : σ :=
  names.foldl (fun s n => v.name n s) s

mutual

def visitBlock (v : Visitor σ) : Block → σ → σ
  | ⟨statements, span⟩ => v.block ⟨statements, span⟩ (visitStatements v statements)

def visitStatements (v : Visitor σ) : List Statement → σ → σ
  | [], s => s
  | st :: sts, s => visitStatements v sts (visitStatement v st s)

def visitStatement (v : Visitor σ) : Statement → σ → σ
  | .assign targets values span =>
    v.statement (.assign targets values span) fun s =>
      visitExpressions v values (visitTargets v targets s)
  | .localAssign names values span =>
    v.statement (.localAssign names values span) fun s =>
      visitExpressions v values (v.visitNames names s)
  | .call c => v.statement (.call c) (visitCall v c)
  | .doBlock body span => v.statement (.doBlock body span) (visitBlock v body)
  | .whileLoop condition body span =>
    v.statement (.whileLoop condition body span) fun s =>
      visitBlock v body (visitExpression v condition s)
  | .repeatLoop body condition span =>
    v.statement (.repeatLoop body condition span) fun s =>
      visitExpression v condition (visitBlock v body s)
  | .conditional clauses otherwise span =>
    v.statement (.conditional clauses otherwise span) fun s =>
      let s := visitClauses v clauses s
      match otherwise with
      | none => s
      | some b => visitBlock v b s
  | .numericFor counter start limit step body span =>
    v.statement (.numericFor counter start limit step body span) fun s =>
      let s := visitExpression v limit (visitExpression v start (v.name counter s))
      let s := match step with
        | none => s
        | some e => visitExpression v e s
      visitBlock v body s
  | .genericFor names values body span =>
    v.statement (.genericFor names values body span) fun s =>
      visitBlock v body (visitExpressions v values (v.visitNames names s))
  | .function name body span =>
    v.statement (.function name body span) fun s =>
      visitFunctionBody v body (v.visitNames name.path s)
  | .localFunction name body span =>
    v.statement (.localFunction name body span) fun s =>
      visitFunctionBody v body (v.name name s)
  | .label name span => v.statement (.label name span) (v.name name)
  | .jump label span => v.statement (.jump label span) (v.name label)
  | .returnValues values span =>
    v.statement (.returnValues values span) (visitExpressions v values)
  | .breakLoop span => v.statement (.breakLoop span) id

def visitClauses (v : Visitor σ) : List Clause → σ → σ
  | [], s => s
  | ⟨condition, body, _⟩ :: clauses, s =>
    visitClauses v clauses (visitBlock v body (visitExpression v condition s))

def visitExpressions (v : Visitor σ) : List Expression → σ → σ
  | [], s => s
  | e :: es, s => visitExpressions v es (visitExpression v e s)

def visitExpression (v : Visitor σ) : Expression → σ → σ
  | .nil span => v.expression (.nil span) id
  | .boolean value span => v.expression (.boolean value span) id
  | .number value span => v.expression (.number value span) id
  | .string value span => v.expression (.string value span) id
  | .varargs span => v.expression (.varargs span) id
  | .function body span => v.expression (.function body span) (visitFunctionBody v body)
  | .primary p => v.expression (.primary p) (visitPrimary v p)
  | .table t => v.expression (.table t) (visitTable v t)
  | .binary op left right span =>
    v.expression (.binary op left right span) fun s =>
      visitExpression v right (visitExpression v left s)
  | .unary op operand span => v.expression (.unary op operand span) (visitExpression v operand)

def visitPrimary (v : Visitor σ) : Primary → σ → σ
  | .var t => v.primary (.var t) (visitTarget v t)
  | .call c => v.primary (.call c) (visitCall v c)
  | .parenthesized e span => v.primary (.parenthesized e span) (visitExpression v e)

def visitTargets (v : Visitor σ) : List Variable → σ → σ
  | [], s => s
  | t :: ts, s => visitTargets v ts (visitTarget v t s)

def visitTarget (v : Visitor σ) : Variable → σ → σ
  | .name n => v.target (.name n) (v.name n)
  | .index base key span =>
    v.target (.index base key span) fun s => visitExpression v key (visitPrimary v base s)
  | .member base name span =>
    v.target (.member base name span) fun s => v.name name (visitPrimary v base s)

def visitCall (v : Visitor σ) : Call → σ → σ
  | .function callee args span =>
    v.call (.function callee args span) fun s => visitArguments v args (visitPrimary v callee s)
  | .method receiver name args span =>
    v.call (.method receiver name args span) fun s =>
      visitArguments v args (v.name name (visitPrimary v receiver s))

def visitArguments (v : Visitor σ) : Arguments → σ → σ
  | .list values span => v.arguments (.list values span) (visitExpressions v values)
  | .table t => v.arguments (.table t) (visitTable v t)
  | .string value span => v.arguments (.string value span) id

/-- A table has no hook of its own, only its fields have. -/
def visitTable (v : Visitor σ) : Table → σ → σ
  | ⟨fields, _⟩ => visitFields v fields

def visitFields (v : Visitor σ) : List Field → σ → σ
  | [], s => s
  | f :: fs, s => visitFields v fs (visitField v f s)

def visitField (v : Visitor σ) : Field → σ → σ
  | .keyed key value span =>
    v.field (.keyed key value span) fun s => visitExpression v value (visitExpression v key s)
  | .named name value span =>
    v.field (.named name value span) fun s => visitExpression v value (v.name name s)
  | .positional value => v.field (.positional value) (visitExpression v value)

def visitFunctionBody (v : Visitor σ) : FunctionBody → σ → σ
  | ⟨parameters, hasVarargs, body, span⟩ =>
    v.functionBody ⟨parameters, hasVarargs, body, span⟩ fun s =>
      visitBlock v body (v.visitNames parameters s)

end

end Visitor

end LuaSource
