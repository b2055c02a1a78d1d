-- SUMMARY: A visitor that walks on meets each node of a tree once, in the order of the nodes.
import LuaSource.Proofs.Tree.Node
import LuaSource.Visitor

/-!
# Visits

A visitor that does something at each node and then takes the way over its parts does it at the
nodes of the tree one after the other. One that has a hook for names alone walks on everywhere, and
so does something at the names among these nodes.
-/

namespace LuaSource

/-! ## Hooks on nodes -/

/-- The name that a node is. -/
def Node.name? : Node → Option Name
  | .name n => some n
  | _ => none

namespace Visitor

variable {σ : Type}

/-- Every hook does something at its node, and then walks on. -/
def walking (f : Node → σ → σ) : Visitor σ where
  block b walk s := walk (f (.block b) s)
  statement st walk s := walk (f (.statement st) s)
  expression e walk s := walk (f (.expression e) s)
  primary p walk s := walk (f (.primary p) s)
  target v walk s := walk (f (.target v) s)
  call c walk s := walk (f (.call c) s)
  arguments a walk s := walk (f (.arguments a) s)
  field fl walk s := walk (f (.field fl) s)
  functionBody body walk s := walk (f (.functionBody body) s)
  name n s := f (.name n) s

/-- Do something at each of the nodes, one after the other. -/
def along (f : Node → σ → σ) (ns : List Node) (s : σ) : σ := ns.foldl (fun s n => f n s) s

variable {f : Node → σ → σ} {n : Node} {ns ms : List Node} {s : σ}

theorem along_cons : along f (n :: ns) s = along f ns (f n s) := rfl

theorem along_append : along f (ns ++ ms) s = along f ms (along f ns s) := List.foldl_append

theorem visitNames_walking (names : List Name) (s : σ) :
    (walking f).visitNames names s = along f (Nodes.names names) s := by
  rw [along, Nodes.names, List.foldl_map]
  rfl

/-! ## The way over a tree -/

mutual

theorem visitBlock_walking (b : Block) (s : σ) :
    (walking f).visitBlock b s = along f (Nodes.block b) s :=
  match b with
  | ⟨sts, _⟩ => by
    rw [visitBlock, Nodes.block, along_cons, ← visitStatements_walking sts]
    rfl

theorem visitStatements_walking (sts : List Statement) (s : σ) :
    (walking f).visitStatements sts s = along f (Nodes.statements sts) s :=
  match sts with
  | [] => rfl
  | st :: sts => by
    rw [visitStatements, Nodes.statements, along_append, visitStatement_walking st,
      visitStatements_walking sts]

theorem visitStatement_walking (st : Statement) (s : σ) :
    (walking f).visitStatement st s = along f (Nodes.statement st) s :=
  match st with
  | .assign vs es _ => by
    rw [visitStatement, Nodes.statement, along_cons, along_append, ← visitTargets_walking vs,
      ← visitExpressions_walking es]
    rfl
  | .localAssign ns es _ => by
    rw [visitStatement, Nodes.statement, along_cons, along_append, ← visitNames_walking,
      ← visitExpressions_walking es]
    rfl
  | .call c => by
    rw [visitStatement, Nodes.statement, along_cons, ← visitCall_walking c]
    rfl
  | .doBlock b _ => by
    rw [visitStatement, Nodes.statement, along_cons, ← visitBlock_walking b]
    rfl
  | .whileLoop e b _ => by
    rw [visitStatement, Nodes.statement, along_cons, along_append, ← visitExpression_walking e,
      ← visitBlock_walking b]
    rfl
  | .repeatLoop b e _ => by
    rw [visitStatement, Nodes.statement, along_cons, along_append, ← visitBlock_walking b,
      ← visitExpression_walking e]
    rfl
  | .conditional cs none _ => by
    rw [visitStatement, Nodes.statement, along_cons, along_append, ← visitClauses_walking cs,
      Nodes.otherwise]
    rfl
  | .conditional cs (some b) _ => by
    rw [visitStatement, Nodes.statement, along_cons, along_append, ← visitClauses_walking cs,
      Nodes.otherwise, ← visitBlock_walking b]
    rfl
  | .numericFor n start limit none b _ => by
    rw [visitStatement, Nodes.statement, along_cons, along_cons, along_append, along_append,
      along_append, ← visitExpression_walking start, ← visitExpression_walking limit, Nodes.step,
      ← visitBlock_walking b]
    rfl
  | .numericFor n start limit (some e) b _ => by
    rw [visitStatement, Nodes.statement, along_cons, along_cons, along_append, along_append,
      along_append, ← visitExpression_walking start, ← visitExpression_walking limit, Nodes.step,
      ← visitExpression_walking e, ← visitBlock_walking b]
    rfl
  | .genericFor ns es b _ => by
    rw [visitStatement, Nodes.statement, along_cons, along_append, along_append,
      ← visitNames_walking, ← visitExpressions_walking es, ← visitBlock_walking b]
    rfl
  | .function name body _ => by
    rw [visitStatement, Nodes.statement, along_cons, along_append, ← visitNames_walking,
      ← visitFunctionBody_walking body]
    rfl
  | .localFunction n body _ => by
    rw [visitStatement, Nodes.statement, along_cons, along_cons, ← visitFunctionBody_walking body]
    rfl
  | .label _ _ | .jump _ _ | .breakLoop _ => rfl
  | .returnValues es _ => by
    rw [visitStatement, Nodes.statement, along_cons, ← visitExpressions_walking es]
    rfl

theorem visitClauses_walking (cs : List Clause) (s : σ) :
    (walking f).visitClauses cs s = along f (Nodes.clauses cs) s :=
  match cs with
  | [] => rfl
  | ⟨e, b, _⟩ :: cs => by
    rw [visitClauses, Nodes.clauses, Nodes.clause, along_append, along_append,
      visitExpression_walking e, visitBlock_walking b, visitClauses_walking cs]

theorem visitExpressions_walking (es : List Expression) (s : σ) :
    (walking f).visitExpressions es s = along f (Nodes.expressions es) s :=
  match es with
  | [] => rfl
  | e :: es => by
    rw [visitExpressions, Nodes.expressions, along_append, visitExpression_walking e,
      visitExpressions_walking es]

theorem visitExpression_walking (e : Expression) (s : σ) :
    (walking f).visitExpression e s = along f (Nodes.expression e) s :=
  match e with
  | .nil _ | .boolean _ _ | .number _ _ | .string _ _ | .varargs _ => rfl
  | .function body _ => by
    rw [visitExpression, Nodes.expression, along_cons, ← visitFunctionBody_walking body]
    rfl
  | .primary p => by
    rw [visitExpression, Nodes.expression, along_cons, ← visitPrimary_walking p]
    rfl
  | .table t => by
    rw [visitExpression, Nodes.expression, along_cons, ← visitTable_walking t]
    rfl
  | .binary _ left right _ => by
    rw [visitExpression, Nodes.expression, along_cons, along_append,
      ← visitExpression_walking left, ← visitExpression_walking right]
    rfl
  | .unary _ operand _ => by
    rw [visitExpression, Nodes.expression, along_cons, ← visitExpression_walking operand]
    rfl

theorem visitPrimary_walking (p : Primary) (s : σ) :
    (walking f).visitPrimary p s = along f (Nodes.primary p) s :=
  match p with
  | .var v => by
    rw [visitPrimary, Nodes.primary, along_cons, ← visitTarget_walking v]
    rfl
  | .call c => by
    rw [visitPrimary, Nodes.primary, along_cons, ← visitCall_walking c]
    rfl
  | .parenthesized e _ => by
    rw [visitPrimary, Nodes.primary, along_cons, ← visitExpression_walking e]
    rfl

theorem visitTargets_walking (vs : List Variable) (s : σ) :
    (walking f).visitTargets vs s = along f (Nodes.targets vs) s :=
  match vs with
  | [] => rfl
  | v :: vs => by
    rw [visitTargets, Nodes.targets, along_append, visitTarget_walking v, visitTargets_walking vs]

theorem visitTarget_walking (v : Variable) (s : σ) :
    (walking f).visitTarget v s = along f (Nodes.target v) s :=
  match v with
  | .name _ => rfl
  | .index base key _ => by
    rw [visitTarget, Nodes.target, along_cons, along_append, ← visitPrimary_walking base,
      ← visitExpression_walking key]
    rfl
  | .member base _ _ => by
    rw [visitTarget, Nodes.target, along_cons, along_append, ← visitPrimary_walking base]
    rfl

theorem visitCall_walking (c : Call) (s : σ) :
    (walking f).visitCall c s = along f (Nodes.call c) s :=
  match c with
  | .function callee args _ => by
    rw [visitCall, Nodes.call, along_cons, along_append, ← visitPrimary_walking callee,
      ← visitArguments_walking args]
    rfl
  | .method receiver _ args _ => by
    rw [visitCall, Nodes.call, along_cons, along_append, along_cons,
      ← visitPrimary_walking receiver, ← visitArguments_walking args]
    rfl

theorem visitArguments_walking (a : Arguments) (s : σ) :
    (walking f).visitArguments a s = along f (Nodes.arguments a) s :=
  match a with
  | .list es _ => by
    rw [visitArguments, Nodes.arguments, along_cons, ← visitExpressions_walking es]
    rfl
  | .table t => by
    rw [visitArguments, Nodes.arguments, along_cons, ← visitTable_walking t]
    rfl
  | .string _ _ => rfl

theorem visitTable_walking (t : Table) (s : σ) :
    (walking f).visitTable t s = along f (Nodes.table t) s :=
  match t with
  | ⟨fs, _⟩ => by rw [visitTable, Nodes.table, visitFields_walking fs]

theorem visitFields_walking (fs : List Field) (s : σ) :
    (walking f).visitFields fs s = along f (Nodes.fields fs) s :=
  match fs with
  | [] => rfl
  | fl :: fs => by
    rw [visitFields, Nodes.fields, along_append, visitField_walking fl, visitFields_walking fs]

theorem visitField_walking (fl : Field) (s : σ) :
    (walking f).visitField fl s = along f (Nodes.field fl) s :=
  match fl with
  | .keyed key value _ => by
    rw [visitField, Nodes.field, along_cons, along_append, ← visitExpression_walking key,
      ← visitExpression_walking value]
    rfl
  | .named _ value _ => by
    rw [visitField, Nodes.field, along_cons, along_cons, ← visitExpression_walking value]
    rfl
  | .positional value => by
    rw [visitField, Nodes.field, along_cons, ← visitExpression_walking value]
    rfl

theorem visitFunctionBody_walking (body : FunctionBody) (s : σ) :
    (walking f).visitFunctionBody body s = along f (Nodes.functionBody body) s :=
  match body with
  | ⟨parameters, _, b, _⟩ => by
    rw [visitFunctionBody, Nodes.functionBody, along_cons, along_append, ← visitNames_walking,
      ← visitBlock_walking b]
    rfl

end

/-! ## Names alone -/

/-- Do something at a node if it is a name. -/
def onName (g : Name → σ → σ) : Node → σ → σ
  | .name n => g n
  | _ => id

theorem along_onName (g : Name → σ → σ) (ns : List Node) (s : σ) :
    along (onName g) ns s = (ns.filterMap Node.name?).foldl (fun s n => g n s) s := by
  induction ns generalizing s with
  | nil => rfl
  | cons n ns ih => cases n <;> exact ih _

/-- Hooks that are not given walk on, so that a hook for names is used at every name. -/
theorem visitBlock_name (g : Name → σ → σ) (b : Block) (s : σ) :
    ({ name := g } : Visitor σ).visitBlock b s =
      ((Nodes.block b).filterMap Node.name?).foldl (fun s n => g n s) s := by
  have hwalking : ({ name := g } : Visitor σ) = walking (onName g) := rfl
  rw [hwalking, visitBlock_walking, along_onName]

end Visitor

end LuaSource
