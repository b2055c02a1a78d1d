-- SUMMARY: What putting operands into parentheses does to a tree.
import LuaSource.Format.Parentheses
import LuaSource.Proofs.Tree.Spans

/-!
# Parentheses around operands

The tree that results is grammatical, and well formed if the tree was. A grammatical tree stays
as it is, so that parentheses are put only once. Where the nodes stand plays no part.
-/

namespace LuaSource

namespace Expression

theorem needsParensBefore_inParensIf (op : BinaryOperator) (e : Expression) :
    (e.inParensIf (e.needsParensBefore op)).needsParensBefore op = false := by
  cases h : e.needsParensBefore op with
  | false => exact h
  | true => rfl

theorem needsParensBehind_inParensIf (limit : Nat) (e : Expression) :
    (e.inParensIf (e.needsParensBehind limit)).needsParensBehind limit = false := by
  cases h : e.needsParensBehind limit with
  | false => exact h
  | true => rfl

end Expression

namespace Parens

theorem statements_eq_map (ss : List Statement) : statements ss = ss.map statement := by
  induction ss with
  | nil => rfl
  | cons s ss ih => rw [statements, List.map_cons, ih]

theorem isLast_statement (s : Statement) : (statement s).isLast = s.isLast := by
  cases s <;> rfl

theorem needsParensBefore_expression (op : BinaryOperator) (e : Expression) :
    (expression e).needsParensBefore op = e.needsParensBefore op := by
  cases e <;> rfl

theorem needsParensBehind_expression (limit : Nat) (e : Expression) :
    (expression e).needsParensBehind limit = e.needsParensBehind limit := by
  cases e <;> rfl

/-! ## Beginnings -/

mutual

theorem startsWithParen_primary (p : Primary) : (primary p).startsWithParen = p.startsWithParen :=
  match p with
  | .var v => startsWithParen_target v
  | .call c => startsWithParen_call c
  | .parenthesized _ _ => rfl

theorem startsWithParen_target (v : Variable) : (target v).startsWithParen = v.startsWithParen :=
  match v with
  | .name _ => rfl
  | .index base _ _ | .member base _ _ => startsWithParen_primary base

theorem startsWithParen_call (c : Call) : (call c).startsWithParen = c.startsWithParen :=
  match c with
  | .function callee _ _ => startsWithParen_primary callee
  | .method receiver _ _ _ => startsWithParen_primary receiver

end

theorem startsWithParen_statement (s : Statement) :
    (statement s).startsWithParen = s.startsWithParen := by
  cases s with
  | assign vs es span =>
    cases vs with
    | nil => rfl
    | cons v vs => exact startsWithParen_target v
  | call c => exact startsWithParen_call c
  | conditional cs b span => cases b <;> rfl
  | numericFor n start limit e b span => cases e <;> rfl
  | _ => rfl

/-! ## Grammatical trees -/

mutual

/-- A grammatical tree has all parentheses that it needs. -/
theorem block_eq_self (b : Block) (h : Everywhere.block grammatical b) : block b = b :=
  match b with
  | ⟨ss, _⟩ => by rw [block, statements_eq_self ss h.2]

theorem statements_eq_self (ss : List Statement) (h : Everywhere.statements grammatical ss) :
    statements ss = ss :=
  match ss with
  | [] => rfl
  | s :: ss => by rw [statements, statement_eq_self s h.1, statements_eq_self ss h.2]

theorem statement_eq_self (s : Statement) (h : Everywhere.statement grammatical s) :
    statement s = s :=
  match s with
  | .assign vs es _ => by rw [statement, targets_eq_self vs h.2.1, expressions_eq_self es h.2.2]
  | .localAssign _ es _ => by rw [statement, expressions_eq_self es h.2.2]
  | .call c => by rw [statement, call_eq_self c h.2]
  | .doBlock b _ => by rw [statement, block_eq_self b h.2]
  | .whileLoop e b _ | .repeatLoop b e _ => by
    rw [statement, expression_eq_self e h.2.1, block_eq_self b h.2.2]
  | .conditional cs none _ => by rw [statement, clauses_eq_self cs h.2.1]
  | .conditional cs (some b) _ => by
    rw [statement, clauses_eq_self cs h.2.1, block_eq_self b h.2.2]
  | .numericFor _ start limit none b _ => by
    rw [statement, expression_eq_self start h.2.2.1, expression_eq_self limit h.2.2.2.1,
      block_eq_self b h.2.2.2.2.2]
  | .numericFor _ start limit (some e) b _ => by
    rw [statement, expression_eq_self start h.2.2.1, expression_eq_self limit h.2.2.2.1,
      expression_eq_self e h.2.2.2.2.1, block_eq_self b h.2.2.2.2.2]
  | .genericFor _ es b _ => by
    rw [statement, expressions_eq_self es h.2.2.1, block_eq_self b h.2.2.2]
  | .function _ body _ | .localFunction _ body _ => by
    rw [statement, functionBody_eq_self body h.2.2]
  | .label _ _ | .jump _ _ | .breakLoop _ => rfl
  | .returnValues es _ => by rw [statement, expressions_eq_self es h.2]

theorem clauses_eq_self (cs : List Clause) (h : Everywhere.clauses grammatical cs) :
    clauses cs = cs :=
  match cs with
  | [] => rfl
  | ⟨e, b, _⟩ :: cs => by
    rw [clauses, expression_eq_self e h.1.1, block_eq_self b h.1.2, clauses_eq_self cs h.2]

theorem functionBody_eq_self (f : FunctionBody) (h : Everywhere.functionBody grammatical f) :
    functionBody f = f :=
  match f with
  | ⟨_, _, b, _⟩ => by rw [functionBody, block_eq_self b h.2]

theorem expression_eq_self (e : Expression) (h : Everywhere.expression grammatical e) :
    expression e = e :=
  match e with
  | .nil _ | .boolean _ _ | .number _ _ | .string _ _ | .varargs _ => rfl
  | .function body _ => by rw [expression, functionBody_eq_self body h.2]
  | .primary p => by rw [expression, primary_eq_self p h.2]
  | .table t => by rw [expression, table_eq_self t h.2]
  | .binary op left right _ => by
    obtain ⟨hleft, hright⟩ : left.needsParensBefore op = false ∧
      right.needsParensBehind op.rightPower = false := h.1
    rw [expression, expression_eq_self left h.2.1, expression_eq_self right h.2.2, hleft, hright]
    rfl
  | .unary _ operand _ => by
    have hoperand : operand.needsParensBehind UnaryOperator.power = false := h.1
    rw [expression, expression_eq_self operand h.2, hoperand]
    rfl

theorem expressions_eq_self (es : List Expression) (h : Everywhere.expressions grammatical es) :
    expressions es = es :=
  match es with
  | [] => rfl
  | e :: es => by rw [expressions, expression_eq_self e h.1, expressions_eq_self es h.2]

theorem primary_eq_self (p : Primary) (h : Everywhere.primary grammatical p) : primary p = p :=
  match p with
  | .var v => by rw [primary, target_eq_self v h]
  | .call c => by rw [primary, call_eq_self c h]
  | .parenthesized e _ => by rw [primary, expression_eq_self e h]

theorem target_eq_self (v : Variable) (h : Everywhere.target grammatical v) : target v = v :=
  match v with
  | .name _ => rfl
  | .index base key _ => by rw [target, primary_eq_self base h.1, expression_eq_self key h.2]
  | .member base _ _ => by rw [target, primary_eq_self base h.1]

theorem targets_eq_self (vs : List Variable) (h : Everywhere.targets grammatical vs) :
    targets vs = vs :=
  match vs with
  | [] => rfl
  | v :: vs => by rw [targets, target_eq_self v h.1, targets_eq_self vs h.2]

theorem call_eq_self (c : Call) (h : Everywhere.call grammatical c) : call c = c :=
  match c with
  | .function callee args _ => by
    rw [call, primary_eq_self callee h.1, arguments_eq_self args h.2]
  | .method receiver _ args _ => by
    rw [call, primary_eq_self receiver h.1, arguments_eq_self args h.2.2]

theorem arguments_eq_self (a : Arguments) (h : Everywhere.arguments grammatical a) :
    arguments a = a :=
  match a with
  | .list es _ => by rw [arguments, expressions_eq_self es h]
  | .table t => by rw [arguments, table_eq_self t h]
  | .string _ _ => rfl

theorem table_eq_self (t : Table) (h : Everywhere.table grammatical t) : table t = t :=
  match t with
  | ⟨fs, _⟩ => by rw [table, fields_eq_self fs h]

theorem fields_eq_self (fs : List Field) (h : Everywhere.fields grammatical fs) : fields fs = fs :=
  match fs with
  | [] => rfl
  | f :: fs => by rw [fields, field_eq_self f h.1, fields_eq_self fs h.2]

theorem field_eq_self (f : Field) (h : Everywhere.field grammatical f) : field f = f :=
  match f with
  | .keyed key value _ => by rw [field, expression_eq_self key h.1, expression_eq_self value h.2]
  | .named _ value _ => by rw [field, expression_eq_self value h.2]
  | .positional value => by rw [field, expression_eq_self value h]

end

/-! ## Well-formed trees -/

theorem targets_ne_nil {vs : List Variable} (h : vs ≠ []) : targets vs ≠ [] := by
  cases vs with
  | nil => exact absurd rfl h
  | cons v vs => exact List.cons_ne_nil _ _

theorem expressions_ne_nil {es : List Expression} (h : es ≠ []) : expressions es ≠ [] := by
  cases es with
  | nil => exact absurd rfl h
  | cons e es => exact List.cons_ne_nil _ _

theorem clauses_ne_nil {cs : List Clause} (h : cs ≠ []) : clauses cs ≠ [] := by
  match cs with
  | [] => exact absurd rfl h
  | ⟨_, _, _⟩ :: _ => exact List.cons_ne_nil _ _

theorem isComplete_statement (s : Statement) (h : s.IsComplete) : (statement s).IsComplete := by
  cases s with
  | assign vs es span => exact ⟨targets_ne_nil h.1, expressions_ne_nil h.2⟩
  | conditional cs b span => exact clauses_ne_nil h
  | genericFor ns es b span => exact ⟨h.1, expressions_ne_nil h.2⟩
  | _ => exact h

theorem isGrouped_expression (e : Expression) : (expression e).IsGrouped := by
  cases e with
  | binary op left right span =>
    have hleft := Expression.needsParensBefore_inParensIf op (expression left)
    have hright := Expression.needsParensBehind_inParensIf op.rightPower (expression right)
    rw [needsParensBefore_expression] at hleft
    rw [needsParensBehind_expression] at hright
    exact ⟨hleft, hright⟩
  | unary op operand span =>
    have hoperand := Expression.needsParensBehind_inParensIf UnaryOperator.power (expression operand)
    rw [needsParensBehind_expression] at hoperand
    exact hoperand
  | _ => trivial

/-- Parentheses are well formed and grammatical around whatever is. -/
theorem everywhere_inParensIf {e : Expression} (needed : Bool)
    (h : Everywhere.expression (wellFormed.and grammatical) e) :
    Everywhere.expression (wellFormed.and grammatical) (e.inParensIf needed) := by
  cases needed with
  | false => exact h
  | true => exact ⟨⟨⟨trivial, trivial⟩, trivial⟩, h⟩

mutual

/-- A well-formed tree stays so, and becomes grammatical. -/
theorem everywhere_block (b : Block) (h : Everywhere.block wellFormed b) :
    Everywhere.block (wellFormed.and grammatical) (block b) :=
  match b with
  | ⟨ss, _⟩ => by
    have hlast : lastOnly (statements ss) := by
      rw [lastOnly, statements_eq_map, ← List.map_dropLast, List.forall_mem_map]
      exact fun s hs => (isLast_statement s).trans (h.1 s hs)
    exact ⟨⟨hlast, hlast⟩, everywhere_statements ss h.2⟩

theorem everywhere_statements (ss : List Statement) (h : Everywhere.statements wellFormed ss) :
    Everywhere.statements (wellFormed.and grammatical) (statements ss) :=
  match ss with
  | [] => trivial
  | s :: ss => ⟨everywhere_statement s h.1, everywhere_statements ss h.2⟩

theorem everywhere_statement (s : Statement) (h : Everywhere.statement wellFormed s) :
    Everywhere.statement (wellFormed.and grammatical) (statement s) :=
  match s with
  | .assign vs es span =>
    ⟨⟨isComplete_statement (.assign vs es span) h.1, trivial⟩, everywhere_targets vs h.2.1,
      everywhere_expressions es h.2.2⟩
  | .localAssign _ es _ =>
    ⟨⟨h.1, trivial⟩, fun n hn => ⟨h.2.1 n hn, trivial⟩, everywhere_expressions es h.2.2⟩
  | .call c => ⟨⟨trivial, trivial⟩, everywhere_call c h.2⟩
  | .doBlock b _ => ⟨⟨trivial, trivial⟩, everywhere_block b h.2⟩
  | .whileLoop e b _ | .repeatLoop b e _ =>
    ⟨⟨trivial, trivial⟩, everywhere_expression e h.2.1, everywhere_block b h.2.2⟩
  | .conditional cs none span =>
    ⟨⟨isComplete_statement (.conditional cs none span) h.1, trivial⟩, everywhere_clauses cs h.2.1,
      trivial⟩
  | .conditional cs (some b) span =>
    ⟨⟨isComplete_statement (.conditional cs (some b) span) h.1, trivial⟩,
      everywhere_clauses cs h.2.1, everywhere_block b h.2.2⟩
  | .numericFor _ start limit none b _ =>
    ⟨⟨trivial, trivial⟩, ⟨h.2.1, trivial⟩, everywhere_expression start h.2.2.1,
      everywhere_expression limit h.2.2.2.1, trivial, everywhere_block b h.2.2.2.2.2⟩
  | .numericFor _ start limit (some e) b _ =>
    ⟨⟨trivial, trivial⟩, ⟨h.2.1, trivial⟩, everywhere_expression start h.2.2.1,
      everywhere_expression limit h.2.2.2.1, everywhere_expression e h.2.2.2.2.1,
      everywhere_block b h.2.2.2.2.2⟩
  | .genericFor ns es b span =>
    ⟨⟨isComplete_statement (.genericFor ns es b span) h.1, trivial⟩,
      fun n hn => ⟨h.2.1 n hn, trivial⟩, everywhere_expressions es h.2.2.1, everywhere_block b h.2.2.2⟩
  | .function _ body _ =>
    ⟨⟨h.1, trivial⟩, fun n hn => ⟨h.2.1 n hn, trivial⟩, everywhere_functionBody body h.2.2⟩
  | .localFunction _ body _ =>
    ⟨⟨trivial, trivial⟩, ⟨h.2.1, trivial⟩, everywhere_functionBody body h.2.2⟩
  | .label _ _ | .jump _ _ => ⟨⟨trivial, trivial⟩, h.2, trivial⟩
  | .returnValues es _ => ⟨⟨trivial, trivial⟩, everywhere_expressions es h.2⟩
  | .breakLoop _ => ⟨⟨trivial, trivial⟩, trivial⟩

theorem everywhere_clauses (cs : List Clause) (h : Everywhere.clauses wellFormed cs) :
    Everywhere.clauses (wellFormed.and grammatical) (clauses cs) :=
  match cs with
  | [] => trivial
  | ⟨e, b, _⟩ :: cs =>
    ⟨⟨everywhere_expression e h.1.1, everywhere_block b h.1.2⟩, everywhere_clauses cs h.2⟩

theorem everywhere_functionBody (f : FunctionBody) (h : Everywhere.functionBody wellFormed f) :
    Everywhere.functionBody (wellFormed.and grammatical) (functionBody f) :=
  match f with
  | ⟨_, _, b, _⟩ => ⟨fun n hn => ⟨h.1 n hn, trivial⟩, everywhere_block b h.2⟩

theorem everywhere_expression (e : Expression) (h : Everywhere.expression wellFormed e) :
    Everywhere.expression (wellFormed.and grammatical) (expression e) :=
  match e with
  | .nil _ | .boolean _ _ | .number _ _ | .string _ _ | .varargs _ => ⟨⟨h.1, trivial⟩, trivial⟩
  | .function body _ => ⟨⟨h.1, trivial⟩, everywhere_functionBody body h.2⟩
  | .primary p => ⟨⟨h.1, trivial⟩, everywhere_primary p h.2⟩
  | .table t => ⟨⟨h.1, trivial⟩, everywhere_table t h.2⟩
  | .binary op left right span =>
    ⟨⟨h.1, isGrouped_expression (.binary op left right span)⟩,
      everywhere_inParensIf _ (everywhere_expression left h.2.1),
      everywhere_inParensIf _ (everywhere_expression right h.2.2)⟩
  | .unary op operand span =>
    ⟨⟨h.1, isGrouped_expression (.unary op operand span)⟩,
      everywhere_inParensIf _ (everywhere_expression operand h.2)⟩

theorem everywhere_expressions (es : List Expression)
    (h : Everywhere.expressions wellFormed es) :
    Everywhere.expressions (wellFormed.and grammatical) (expressions es) :=
  match es with
  | [] => trivial
  | e :: es => ⟨everywhere_expression e h.1, everywhere_expressions es h.2⟩

theorem everywhere_primary (p : Primary) (h : Everywhere.primary wellFormed p) :
    Everywhere.primary (wellFormed.and grammatical) (primary p) :=
  match p with
  | .var v => everywhere_target v h
  | .call c => everywhere_call c h
  | .parenthesized e _ => everywhere_expression e h

theorem everywhere_target (v : Variable) (h : Everywhere.target wellFormed v) :
    Everywhere.target (wellFormed.and grammatical) (target v) :=
  match v with
  | .name _ => ⟨h, trivial⟩
  | .index base key _ => ⟨everywhere_primary base h.1, everywhere_expression key h.2⟩
  | .member base _ _ => ⟨everywhere_primary base h.1, h.2, trivial⟩

theorem everywhere_targets (vs : List Variable) (h : Everywhere.targets wellFormed vs) :
    Everywhere.targets (wellFormed.and grammatical) (targets vs) :=
  match vs with
  | [] => trivial
  | v :: vs => ⟨everywhere_target v h.1, everywhere_targets vs h.2⟩

theorem everywhere_call (c : Call) (h : Everywhere.call wellFormed c) :
    Everywhere.call (wellFormed.and grammatical) (call c) :=
  match c with
  | .function callee args _ => ⟨everywhere_primary callee h.1, everywhere_arguments args h.2⟩
  | .method receiver _ args _ =>
    ⟨everywhere_primary receiver h.1, ⟨h.2.1, trivial⟩, everywhere_arguments args h.2.2⟩

theorem everywhere_arguments (a : Arguments) (h : Everywhere.arguments wellFormed a) :
    Everywhere.arguments (wellFormed.and grammatical) (arguments a) :=
  match a with
  | .list es _ => everywhere_expressions es h
  | .table t => everywhere_table t h
  | .string _ _ => trivial

theorem everywhere_table (t : Table) (h : Everywhere.table wellFormed t) :
    Everywhere.table (wellFormed.and grammatical) (table t) :=
  match t with
  | ⟨fs, _⟩ => everywhere_fields fs h

theorem everywhere_fields (fs : List Field) (h : Everywhere.fields wellFormed fs) :
    Everywhere.fields (wellFormed.and grammatical) (fields fs) :=
  match fs with
  | [] => trivial
  | f :: fs => ⟨everywhere_field f h.1, everywhere_fields fs h.2⟩

theorem everywhere_field (f : Field) (h : Everywhere.field wellFormed f) :
    Everywhere.field (wellFormed.and grammatical) (field f) :=
  match f with
  | .keyed key value _ => ⟨everywhere_expression key h.1, everywhere_expression value h.2⟩
  | .named _ value _ => ⟨⟨h.1, trivial⟩, everywhere_expression value h.2⟩
  | .positional value => everywhere_expression value h

end

/-! ## Shapes -/

mutual

theorem span_shape_primary (p : Primary) : (Shape.primary p).span = default :=
  match p with
  | .var v => by rw [Shape.primary, Primary.span, span_shape_target v]
  | .call c => by rw [Shape.primary, Primary.span, span_shape_call c]
  | .parenthesized _ _ => by rw [Shape.primary, Primary.span]

theorem span_shape_target (v : Variable) : (Shape.target v).span = default :=
  match v with
  | .name _ => rfl
  | .index _ _ _ | .member _ _ _ => by rw [Shape.target, Variable.span]

theorem span_shape_call (c : Call) : (Shape.call c).span = default :=
  match c with
  | .function _ _ _ | .method _ _ _ _ => by rw [Shape.call, Call.span]

end

theorem span_shape_expression (e : Expression) : (Shape.expression e).span = default := by
  cases e with
  | primary p => exact span_shape_primary p
  | table t =>
    obtain ⟨fs, span⟩ := t
    rw [Shape.expression, Shape.table]
    rfl
  | _ => rfl

theorem shape_inParensIf (needed : Bool) (e : Expression) :
    Shape.expression (e.inParensIf needed) = (Shape.expression e).inParensIf needed := by
  cases needed with
  | false => rfl
  | true =>
    show Shape.expression e.inParens = (Shape.expression e).inParens
    rw [Expression.inParens, Expression.inParens, span_shape_expression, Shape.expression,
      Shape.primary]

mutual

theorem shape_block (b : Block) : Shape.block (block b) = block (Shape.block b) :=
  match b with
  | ⟨ss, _⟩ => by simp only [block, Shape.block, shape_statements ss]

theorem shape_statements (ss : List Statement) :
    Shape.statements (statements ss) = statements (Shape.statements ss) :=
  match ss with
  | [] => rfl
  | s :: ss => by
    simp only [statements, Shape.statements, shape_statement s, shape_statements ss]

theorem shape_statement (s : Statement) :
    Shape.statement (statement s) = statement (Shape.statement s) :=
  match s with
  | .assign vs es _ => by
    simp only [statement, Shape.statement, shape_targets vs, shape_expressions es]
  | .localAssign _ es _ | .returnValues es _ => by
    simp only [statement, Shape.statement, shape_expressions es]
  | .call c => by simp only [statement, Shape.statement, shape_call c]
  | .doBlock b _ => by simp only [statement, Shape.statement, shape_block b]
  | .whileLoop e b _ | .repeatLoop b e _ => by
    simp only [statement, Shape.statement, shape_expression e, shape_block b]
  | .conditional cs none _ => by
    simp only [statement, Shape.statement, Shape.otherwise, shape_clauses cs]
  | .conditional cs (some b) _ => by
    simp only [statement, Shape.statement, Shape.otherwise, shape_clauses cs, shape_block b]
  | .numericFor _ start limit none b _ => by
    simp only [statement, Shape.statement, Shape.step, shape_expression start,
      shape_expression limit, shape_block b]
  | .numericFor _ start limit (some e) b _ => by
    simp only [statement, Shape.statement, Shape.step, shape_expression start,
      shape_expression limit, shape_expression e, shape_block b]
  | .genericFor _ es b _ => by
    simp only [statement, Shape.statement, shape_expressions es, shape_block b]
  | .function _ body _ | .localFunction _ body _ => by
    simp only [statement, Shape.statement, shape_functionBody body]
  | .label _ _ | .jump _ _ | .breakLoop _ => rfl

theorem shape_clauses (cs : List Clause) :
    Shape.clauses (clauses cs) = clauses (Shape.clauses cs) :=
  match cs with
  | [] => rfl
  | ⟨e, b, _⟩ :: cs => by
    simp only [clauses, Shape.clauses, Shape.clause, shape_expression e, shape_block b,
      shape_clauses cs]

theorem shape_functionBody (f : FunctionBody) :
    Shape.functionBody (functionBody f) = functionBody (Shape.functionBody f) :=
  match f with
  | ⟨_, _, b, _⟩ => by simp only [functionBody, Shape.functionBody, shape_block b]

theorem shape_expression (e : Expression) :
    Shape.expression (expression e) = expression (Shape.expression e) :=
  match e with
  | .nil _ | .boolean _ _ | .number _ _ | .string _ _ | .varargs _ => rfl
  | .function body _ => by simp only [expression, Shape.expression, shape_functionBody body]
  | .primary p => by simp only [expression, Shape.expression, shape_primary p]
  | .table t => by simp only [expression, Shape.expression, shape_table t]
  | .binary _ left right _ => by
    simp only [expression, Shape.expression, shape_inParensIf, shape_expression left,
      shape_expression right, Shape.needsParensBefore_expression,
      Shape.needsParensBehind_expression]
  | .unary _ operand _ => by
    simp only [expression, Shape.expression, shape_inParensIf, shape_expression operand,
      Shape.needsParensBehind_expression]

theorem shape_expressions (es : List Expression) :
    Shape.expressions (expressions es) = expressions (Shape.expressions es) :=
  match es with
  | [] => rfl
  | e :: es => by
    simp only [expressions, Shape.expressions, shape_expression e, shape_expressions es]

theorem shape_primary (p : Primary) : Shape.primary (primary p) = primary (Shape.primary p) :=
  match p with
  | .var v => by simp only [primary, Shape.primary, shape_target v]
  | .call c => by simp only [primary, Shape.primary, shape_call c]
  | .parenthesized e _ => by simp only [primary, Shape.primary, shape_expression e]

theorem shape_target (v : Variable) : Shape.target (target v) = target (Shape.target v) :=
  match v with
  | .name _ => rfl
  | .index base key _ => by
    simp only [target, Shape.target, shape_primary base, shape_expression key]
  | .member base _ _ => by simp only [target, Shape.target, shape_primary base]

theorem shape_targets (vs : List Variable) :
    Shape.targets (targets vs) = targets (Shape.targets vs) :=
  match vs with
  | [] => rfl
  | v :: vs => by simp only [targets, Shape.targets, shape_target v, shape_targets vs]

theorem shape_call (c : Call) : Shape.call (call c) = call (Shape.call c) :=
  match c with
  | .function callee args _ => by
    simp only [call, Shape.call, shape_primary callee, shape_arguments args]
  | .method receiver _ args _ => by
    simp only [call, Shape.call, shape_primary receiver, shape_arguments args]

theorem shape_arguments (a : Arguments) :
    Shape.arguments (arguments a) = arguments (Shape.arguments a) :=
  match a with
  | .list es _ => by simp only [arguments, Shape.arguments, shape_expressions es]
  | .table t => by simp only [arguments, Shape.arguments, shape_table t]
  | .string _ _ => rfl

theorem shape_table (t : Table) : Shape.table (table t) = table (Shape.table t) :=
  match t with
  | ⟨fs, _⟩ => by simp only [table, Shape.table, shape_fields fs]

theorem shape_fields (fs : List Field) : Shape.fields (fields fs) = fields (Shape.fields fs) :=
  match fs with
  | [] => rfl
  | f :: fs => by simp only [fields, Shape.fields, shape_field f, shape_fields fs]

theorem shape_field (f : Field) : Shape.field (field f) = field (Shape.field f) :=
  match f with
  | .keyed key value _ => by
    simp only [field, Shape.field, shape_expression key, shape_expression value]
  | .named _ value _ | .positional value => by
    simp only [field, Shape.field, shape_expression value]

end

end Parens

end LuaSource
