-- SUMMARY: The nodes that a node is made of, as a visitor comes to them from it.
import LuaSource.Proofs.Tree.Visit

/-!
# Children

A visitor comes to a node from the one that the node is a child of. So all nodes of a tree are met
by going from nodes to their children. What is known of the root and is handed on from every node to
its children is known of all of them.
-/

namespace LuaSource

def Node.span : Node → Span
  | .block b => b.span
  | .statement s => s.span
  | .expression e => e.span
  | .primary p => p.span
  | .target v => v.span
  | .call c => c.span
  | .arguments a => a.span
  | .field f => f.span
  | .functionBody f => f.span
  | .name n => n.span

/-! ## Children -/

def Clause.children (c : Clause) : List Node := [.expression c.condition, .block c.body]

def Statement.children : Statement → List Node
  | .assign vs es _ => vs.map .target ++ es.map .expression
  | .localAssign ns es _ => ns.map .name ++ es.map .expression
  | .call c => [.call c]
  | .doBlock b _ => [.block b]
  | .whileLoop e b _ => [.expression e, .block b]
  | .repeatLoop b e _ => [.block b, .expression e]
  | .conditional cs b _ => cs.flatMap Clause.children ++ b.toList.map .block
  | .numericFor n start limit e b _ =>
    .name n :: .expression start :: .expression limit ::
      (e.toList.map .expression ++ [.block b])
  | .genericFor ns es b _ => ns.map .name ++ (es.map .expression ++ [.block b])
  | .function f body _ => f.path.map .name ++ [.functionBody body]
  | .localFunction n body _ => [.name n, .functionBody body]
  | .label n _ | .jump n _ => [.name n]
  | .returnValues es _ => es.map .expression
  | .breakLoop _ => []

def Expression.children : Expression → List Node
  | .function body _ => [.functionBody body]
  | .primary p => [.primary p]
  | .table t => t.fields.map .field
  | .binary _ left right _ => [.expression left, .expression right]
  | .unary _ operand _ => [.expression operand]
  | .nil _ | .boolean _ _ | .number _ _ | .string _ _ | .varargs _ => []

def Primary.children : Primary → List Node
  | .var v => [.target v]
  | .call c => [.call c]
  | .parenthesized e _ => [.expression e]

def Variable.children : Variable → List Node
  | .name n => [.name n]
  | .index base key _ => [.primary base, .expression key]
  | .member base n _ => [.primary base, .name n]

def Call.children : Call → List Node
  | .function callee args _ => [.primary callee, .arguments args]
  | .method receiver n args _ => [.primary receiver, .name n, .arguments args]

def Arguments.children : Arguments → List Node
  | .list es _ => es.map .expression
  | .table t => t.fields.map .field
  | .string _ _ => []

def Field.children : Field → List Node
  | .keyed key value _ => [.expression key, .expression value]
  | .named n value _ => [.name n, .expression value]
  | .positional value => [.expression value]

/-- The nodes that a visitor comes to from a node, in their order. -/
def Node.children : Node → List Node
  | .block b => b.statements.map .statement
  | .statement s => s.children
  | .expression e => e.children
  | .primary p => p.children
  | .target v => v.children
  | .call c => c.children
  | .arguments a => a.children
  | .field f => f.children
  | .functionBody f => f.parameters.map .name ++ [.block f.body]
  | .name _ => []

/-! ## Visits -/

namespace Visitor

variable {σ : Type}

/-- What a visitor does at a node and at all nodes that it comes to from there. -/
def visit (v : Visitor σ) : Node → σ → σ
  | .block b => v.visitBlock b
  | .statement s => v.visitStatement s
  | .expression e => v.visitExpression e
  | .primary p => v.visitPrimary p
  | .target t => v.visitTarget t
  | .call c => v.visitCall c
  | .arguments a => v.visitArguments a
  | .field f => v.visitField f
  | .functionBody f => v.visitFunctionBody f
  | .name n => v.name n

/-- The hook for a node, which is given the way on from it. From a name there is no way on. -/
def hook (v : Visitor σ) : Node → (σ → σ) → σ → σ
  | .block b => v.block b
  | .statement s => v.statement s
  | .expression e => v.expression e
  | .primary p => v.primary p
  | .target t => v.target t
  | .call c => v.call c
  | .arguments a => v.arguments a
  | .field f => v.field f
  | .functionBody f => v.functionBody f
  | .name n => fun _ => v.name n

variable (v : Visitor σ)

theorem visitNames_eq (ns : List Name) (s : σ) :
    v.visitNames ns s = along v.visit (ns.map .name) s := by
  rw [visitNames, along, List.foldl_map]
  rfl

theorem visitStatements_eq (sts : List Statement) (s : σ) :
    v.visitStatements sts s = along v.visit (sts.map .statement) s := by
  induction sts generalizing s with
  | nil => rfl
  | cons st sts ih => rw [visitStatements, ih, List.map_cons, along_cons, visit]

theorem visitExpressions_eq (es : List Expression) (s : σ) :
    v.visitExpressions es s = along v.visit (es.map .expression) s := by
  induction es generalizing s with
  | nil => rfl
  | cons e es ih => rw [visitExpressions, ih, List.map_cons, along_cons, visit]

theorem visitTargets_eq (vs : List Variable) (s : σ) :
    v.visitTargets vs s = along v.visit (vs.map .target) s := by
  induction vs generalizing s with
  | nil => rfl
  | cons t ts ih => rw [visitTargets, ih, List.map_cons, along_cons, visit]

theorem visitFields_eq (fs : List Field) (s : σ) :
    v.visitFields fs s = along v.visit (fs.map .field) s := by
  induction fs generalizing s with
  | nil => rfl
  | cons f fs ih => rw [visitFields, ih, List.map_cons, along_cons, visit]

theorem visitClauses_eq (cs : List Clause) (s : σ) :
    v.visitClauses cs s = along v.visit (cs.flatMap Clause.children) s := by
  induction cs generalizing s with
  | nil => rfl
  | cons c cs ih =>
    obtain ⟨condition, body, span⟩ := c
    rw [visitClauses, ih, List.flatMap_cons, along_append]
    rfl

theorem visitTable_eq (t : Table) (s : σ) :
    v.visitTable t s = along v.visit (t.fields.map .field) s := by
  obtain ⟨fields, span⟩ := t
  rw [visitTable, visitFields_eq]

theorem hook_congr {n : Node} {walk walk' : σ → σ} (h : ∀ s, walk s = walk' s) (s : σ) :
    v.hook n walk s = v.hook n walk' s := by
  rw [funext h]

theorem visitBlock_eq (b : Block) (s : σ) :
    v.visitBlock b s = v.hook (.block b) (along v.visit (Node.block b).children) s := by
  obtain ⟨sts, span⟩ := b
  rw [visitBlock]
  exact v.hook_congr (n := .block ⟨sts, span⟩) (v.visitStatements_eq sts) s

theorem visitStatement_eq (st : Statement) (s : σ) :
    v.visitStatement st s = v.hook (.statement st) (along v.visit st.children) s := by
  cases st <;> rw [visitStatement] <;> refine v.hook_congr (n := .statement _) (fun s => ?_) s
  case conditional cs b span =>
    rw [Statement.children, along_append, ← visitClauses_eq]
    cases b <;> rfl
  case numericFor n start limit e b span =>
    rw [Statement.children, along_cons, along_cons, along_cons, along_append]
    cases e <;> rfl
  case assign vs es span =>
    rw [Statement.children, along_append, ← visitTargets_eq, ← visitExpressions_eq]
  case localAssign ns es span =>
    rw [Statement.children, along_append, ← visitNames_eq, ← visitExpressions_eq]
  case genericFor ns es b span =>
    rw [Statement.children, along_append, along_append, ← visitNames_eq, ← visitExpressions_eq]
    rfl
  case function f body span =>
    rw [Statement.children, along_append, ← visitNames_eq]
    rfl
  case returnValues es span => exact v.visitExpressions_eq es s
  all_goals rfl

theorem visitExpression_eq (e : Expression) (s : σ) :
    v.visitExpression e s = v.hook (.expression e) (along v.visit e.children) s := by
  cases e <;> rw [visitExpression] <;> refine v.hook_congr (n := .expression _) (fun s => ?_) s
  case table t => exact v.visitTable_eq t s
  all_goals rfl

theorem visitArguments_eq (a : Arguments) (s : σ) :
    v.visitArguments a s = v.hook (.arguments a) (along v.visit a.children) s := by
  cases a <;> rw [visitArguments] <;> refine v.hook_congr (n := .arguments _) (fun s => ?_) s
  case list es span => exact v.visitExpressions_eq es s
  case table t => exact v.visitTable_eq t s
  case string => rfl

theorem visitFunctionBody_eq (f : FunctionBody) (s : σ) :
    v.visitFunctionBody f s =
      v.hook (.functionBody f) (along v.visit (Node.functionBody f).children) s := by
  obtain ⟨ns, hasVarargs, b, span⟩ := f
  rw [visitFunctionBody]
  refine v.hook_congr (n := .functionBody ⟨ns, hasVarargs, b, span⟩) (fun s => ?_) s
  rw [Node.children, along_append, ← visitNames_eq]
  rfl

/-- A visitor comes to the children of a node by way of the hook for the node. -/
theorem visit_eq (n : Node) (s : σ) : v.visit n s = v.hook n (along v.visit n.children) s := by
  cases n with
  | block b => exact v.visitBlock_eq b s
  | statement st => exact v.visitStatement_eq st s
  | expression e => exact v.visitExpression_eq e s
  | primary p => cases p <;> rfl
  | target t => cases t <;> rfl
  | call c => cases c <;> rfl
  | arguments a => exact v.visitArguments_eq a s
  | field f => cases f <;> rfl
  | functionBody f => exact v.visitFunctionBody_eq f s
  | name n => rfl

end Visitor

/-! ## Nodes of a tree -/

namespace Nodes

/-- A node and all nodes that are come to from it. -/
def of : Node → List Node
  | .block b => block b
  | .statement s => statement s
  | .expression e => expression e
  | .primary p => primary p
  | .target v => target v
  | .call c => call c
  | .arguments a => arguments a
  | .field f => field f
  | .functionBody f => functionBody f
  | .name n => [.name n]

theorem statements_eq (ss : List Statement) :
    statements ss = (ss.map .statement).flatMap of := by
  induction ss with
  | nil => rfl
  | cons s ss ih => rw [statements, ih, List.map_cons, List.flatMap_cons, of]

theorem expressions_eq (es : List Expression) :
    expressions es = (es.map .expression).flatMap of := by
  induction es with
  | nil => rfl
  | cons e es ih => rw [expressions, ih, List.map_cons, List.flatMap_cons, of]

theorem targets_eq (vs : List Variable) : targets vs = (vs.map .target).flatMap of := by
  induction vs with
  | nil => rfl
  | cons v vs ih => rw [targets, ih, List.map_cons, List.flatMap_cons, of]

theorem fields_eq (fs : List Field) : fields fs = (fs.map .field).flatMap of := by
  induction fs with
  | nil => rfl
  | cons f fs ih => rw [fields, ih, List.map_cons, List.flatMap_cons, of]

theorem names_eq (ns : List Name) : names ns = (ns.map .name).flatMap of := by
  induction ns with
  | nil => rfl
  | cons n ns ih => rw [names, List.map_cons, List.flatMap_cons, ← ih]; rfl

theorem clauses_eq (cs : List Clause) :
    clauses cs = (cs.flatMap Clause.children).flatMap of := by
  induction cs with
  | nil => rfl
  | cons c cs ih =>
    obtain ⟨condition, body, span⟩ := c
    rw [clauses, clause, ih, List.flatMap_cons, List.flatMap_append]
    simp [Clause.children, of]

theorem table_eq (t : Table) : table t = (t.fields.map .field).flatMap of := by
  obtain ⟨fields, span⟩ := t
  rw [table, fields_eq]

/-- The nodes of a tree are its root and those of the children of the root. -/
theorem of_eq (n : Node) : of n = n :: n.children.flatMap of := by
  cases n with
  | block b =>
    obtain ⟨ss, span⟩ := b
    rw [of, block, statements_eq]
    rfl
  | statement s =>
    rw [of, Node.children]
    cases s <;> rw [statement, Statement.children]
    case conditional cs b span =>
      rw [clauses_eq, List.flatMap_append]
      cases b <;> simp [otherwise, of]
    case numericFor n start limit e b span =>
      cases e <;> simp [step, of]
    all_goals
      simp [expressions_eq, targets_eq, names_eq, of]
  | expression e =>
    rw [of, Node.children]
    cases e <;> rw [expression, Expression.children]
    case table t => rw [table_eq]
    all_goals simp [of]
  | primary p =>
    rw [of, Node.children]
    cases p <;> simp [primary, Primary.children, of]
  | target v =>
    rw [of, Node.children]
    cases v <;> simp [target, Variable.children, of]
  | call c =>
    rw [of, Node.children]
    cases c <;> simp [call, Call.children, of]
  | arguments a =>
    rw [of, Node.children]
    cases a <;> simp [arguments, Arguments.children, expressions_eq, table_eq]
  | field f =>
    rw [of, Node.children]
    cases f <;> simp [field, Field.children, of]
  | functionBody f =>
    obtain ⟨ns, hasVarargs, b, span⟩ := f
    rw [of, Node.children, functionBody, names_eq]
    simp [of]
  | name n => rfl

theorem length_of_lt {m n : Node} (h : m ∈ n.children) : (of m).length < (of n).length := by
  rw [of_eq n, List.length_cons]
  have hle := (List.sublist_flatten_of_mem (List.mem_map_of_mem (f := of) h)).length_le
  exact Nat.lt_succ_of_le hle

/-- What holds of the root and is handed on to children holds of all nodes. -/
theorem of_induct {P : Node → Prop} {n : Node} (hroot : P n)
    (hchildren : ∀ m, P m → ∀ c ∈ m.children, P c) : ∀ m ∈ of n, P m := by
  induction hlength : (of n).length using Nat.strongRecOn generalizing n with
  | ind k ih =>
    rw [of_eq]
    refine List.forall_mem_cons.2 ⟨hroot, fun m hm => ?_⟩
    obtain ⟨c, hc, hm⟩ := List.mem_flatMap.1 hm
    exact ih _ (hlength ▸ length_of_lt hc) (hchildren n hroot c hc) rfl m hm

end Nodes

end LuaSource
