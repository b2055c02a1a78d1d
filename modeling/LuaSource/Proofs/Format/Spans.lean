-- SUMMARY: Formatting does not look at spans.
import LuaSource.Format
import LuaSource.Proofs.Tree.Parens

/-!
# Formatting and spans

Trees of one shape are laid out alike, and have the same text.
-/

namespace LuaSource

namespace Layout

/-! ## Names -/

theorem moreNames_shape (ns : List Name) (k : List Piece) :
    moreNames (ns.map Shape.name) k = moreNames ns k := by
  induction ns with
  | nil => rfl
  | cons n ns ih =>
    rw [List.map_cons, moreNames, moreNames, ih]
    rfl

theorem names_shape (ns : List Name) (k : List Piece) :
    names (ns.map Shape.name) k = names ns k := by
  cases ns with
  | nil => rfl
  | cons n ns =>
    rw [List.map_cons, names, names, moreNames_shape]
    rfl

theorem parameters_shape (ns : List Name) (hasVarargs : Bool) (k : List Piece) :
    parameters (ns.map Shape.name) hasVarargs k = parameters ns hasVarargs k := by
  rw [parameters, parameters, names_shape, List.isEmpty_map]

theorem morePath_shape (isMethod : Bool) (ns : List Name) (k : List Piece) :
    morePath isMethod (ns.map Shape.name) k = morePath isMethod ns k := by
  induction ns with
  | nil => rfl
  | cons n ns ih =>
    rw [List.map_cons, morePath, morePath, ih, List.isEmpty_map]
    rfl

theorem functionName_shape (f : FunctionName) (k : List Piece) :
    functionName (Shape.functionName f) k = functionName f k := by
  obtain ⟨path, isMethod, span⟩ := f
  cases path with
  | nil => rfl
  | cons n ns =>
    show Piece.name n.text :: morePath isMethod (ns.map Shape.name) k = _
    rw [morePath_shape]
    rfl

/-! ## Nodes -/

mutual

theorem block_shape (b : Block) (depth : Nat) (k : List Piece) :
    block depth (Shape.block b) k = block depth b k :=
  match b with
  | ⟨ss, _⟩ => by rw [Shape.block, block, block, statements_shape ss]

theorem statements_shape (ss : List Statement) (depth : Nat) (first : Bool) (k : List Piece) :
    statements depth first (Shape.statements ss) k = statements depth first ss k :=
  match ss with
  | [] => rfl
  | s :: ss => by
    rw [Shape.statements, statements, statements, statement_shape s, statements_shape ss,
      Shape.startsWithParen_statement]

theorem statement_shape (s : Statement) (depth : Nat) (k : List Piece) :
    statement depth (Shape.statement s) k = statement depth s k :=
  match s with
  | .assign vs es _ => by
    rw [Shape.statement, statement, statement, expressions_shape es, targets_shape vs]
  | .localAssign ns [] _ => congrArg (word .kwLocal) (names_shape ns k)
  | .localAssign ns (e :: es) _ => by
    rw [Shape.statement, Shape.expressions, statement, statement, names_shape,
      moreExpressions_shape es, expression_shape e]
  | .call c => by rw [Shape.statement, statement, statement, call_shape c]
  | .doBlock b _ => by rw [Shape.statement, statement, statement, block_shape b]
  | .whileLoop e b _ | .repeatLoop b e _ => by
    rw [Shape.statement, statement, statement, block_shape b, expression_shape e]
  | .conditional cs none _ => by
    rw [Shape.statement, Shape.otherwise, statement, statement, conditional_shape cs]
  | .conditional cs (some b) _ => by
    rw [Shape.statement, Shape.otherwise, statement, statement, conditional_shape cs,
      block_shape b]
  | .numericFor n start limit none b _ => by
    rw [Shape.statement, Shape.step, statement, statement, block_shape b, expression_shape limit,
      expression_shape start]
    rfl
  | .numericFor n start limit (some e) b _ => by
    rw [Shape.statement, Shape.step, statement, statement, block_shape b, expression_shape e,
      expression_shape limit, expression_shape start]
    rfl
  | .genericFor ns es b _ => by
    rw [Shape.statement, statement, statement, block_shape b, expressions_shape es, names_shape]
  | .function f body _ => by
    rw [Shape.statement, statement, statement, functionBody_shape body, functionName_shape]
  | .localFunction n body _ => by
    rw [Shape.statement, statement, statement, functionBody_shape body]
    rfl
  | .label _ _ | .jump _ _ | .breakLoop _ => rfl
  | .returnValues [] _ => rfl
  | .returnValues (e :: es) _ => by
    rw [Shape.statement, Shape.expressions, statement, statement, moreExpressions_shape es,
      expression_shape e]

theorem conditional_shape (cs : List Clause) (depth : Nat) (keyword : Symbol) (k : List Piece) :
    conditional depth keyword (Shape.clauses cs) k = conditional depth keyword cs k :=
  match cs with
  | [] => rfl
  | ⟨e, b, _⟩ :: cs => by
    rw [Shape.clauses, Shape.clause, conditional, conditional, conditional_shape cs,
      block_shape b, expression_shape e]

theorem functionBody_shape (f : FunctionBody) (depth : Nat) (k : List Piece) :
    functionBody depth (Shape.functionBody f) k = functionBody depth f k :=
  match f with
  | ⟨_, _, b, _⟩ => by
    rw [Shape.functionBody, functionBody, functionBody, block_shape b, parameters_shape]

theorem expression_shape (e : Expression) (depth : Nat) (k : List Piece) :
    expression depth (Shape.expression e) k = expression depth e k :=
  match e with
  | .nil _ | .boolean _ _ | .number _ _ | .string _ _ | .varargs _ => rfl
  | .function body _ => by
    rw [Shape.expression, expression, expression, functionBody_shape body]
  | .primary p => by rw [Shape.expression, expression, expression, primary_shape p]
  | .table t => by rw [Shape.expression, expression, expression, table_shape t]
  | .binary _ left right _ => by
    rw [Shape.expression, expression, expression, expression_shape right, expression_shape left]
  | .unary _ operand _ => by
    rw [Shape.expression, expression, expression, expression_shape operand]

theorem moreExpressions_shape (es : List Expression) (depth : Nat) (k : List Piece) :
    moreExpressions depth (Shape.expressions es) k = moreExpressions depth es k :=
  match es with
  | [] => rfl
  | e :: es => by
    rw [Shape.expressions, moreExpressions, moreExpressions, moreExpressions_shape es,
      expression_shape e]

theorem expressions_shape (es : List Expression) (depth : Nat) (k : List Piece) :
    expressions depth (Shape.expressions es) k = expressions depth es k :=
  match es with
  | [] => rfl
  | e :: es => by
    rw [Shape.expressions, expressions, expressions, moreExpressions_shape es,
      expression_shape e]

theorem primary_shape (p : Primary) (depth : Nat) (k : List Piece) :
    primary depth (Shape.primary p) k = primary depth p k :=
  match p with
  | .var v => by rw [Shape.primary, primary, primary, target_shape v]
  | .call c => by rw [Shape.primary, primary, primary, call_shape c]
  | .parenthesized e _ => by rw [Shape.primary, primary, primary, expression_shape e]

theorem target_shape (v : Variable) (depth : Nat) (k : List Piece) :
    target depth (Shape.target v) k = target depth v k :=
  match v with
  | .name _ => rfl
  | .index base key _ => by
    rw [Shape.target, target, target, expression_shape key, primary_shape base]
  | .member base _ _ => by
    rw [Shape.target, target, target, primary_shape base]
    rfl

theorem moreTargets_shape (vs : List Variable) (depth : Nat) (k : List Piece) :
    moreTargets depth (Shape.targets vs) k = moreTargets depth vs k :=
  match vs with
  | [] => rfl
  | v :: vs => by
    rw [Shape.targets, moreTargets, moreTargets, moreTargets_shape vs, target_shape v]

theorem targets_shape (vs : List Variable) (depth : Nat) (k : List Piece) :
    targets depth (Shape.targets vs) k = targets depth vs k :=
  match vs with
  | [] => rfl
  | v :: vs => by rw [Shape.targets, targets, targets, moreTargets_shape vs, target_shape v]

theorem call_shape (c : Call) (depth : Nat) (k : List Piece) :
    call depth (Shape.call c) k = call depth c k :=
  match c with
  | .function callee args _ => by
    rw [Shape.call, call, call, arguments_shape args, primary_shape callee]
  | .method receiver n args _ => by
    rw [Shape.call, call, call, arguments_shape args, primary_shape receiver]
    rfl

theorem arguments_shape (a : Arguments) (depth : Nat) (k : List Piece) :
    arguments depth (Shape.arguments a) k = arguments depth a k :=
  match a with
  | .list es _ => by rw [Shape.arguments, arguments, arguments, expressions_shape es]
  | .table t => by rw [Shape.arguments, arguments, arguments, table_shape t]
  | .string _ _ => rfl

theorem table_shape (t : Table) (depth : Nat) (k : List Piece) :
    table depth (Shape.table t) k = table depth t k :=
  match t with
  | ⟨[], _⟩ => rfl
  | ⟨f :: fs, _⟩ => by
    rw [Shape.table, Shape.fields, table, table, moreFields_shape fs, field_shape f]

theorem field_shape (f : Field) (depth : Nat) (k : List Piece) :
    field depth (Shape.field f) k = field depth f k :=
  match f with
  | .keyed key value _ => by
    rw [Shape.field, field, field, expression_shape value, expression_shape key]
  | .named _ value _ => by
    rw [Shape.field, field, field, expression_shape value]
    rfl
  | .positional value => by rw [Shape.field, field, field, expression_shape value]

theorem moreFields_shape (fs : List Field) (depth : Nat) (k : List Piece) :
    moreFields depth (Shape.fields fs) k = moreFields depth fs k :=
  match fs with
  | [] => rfl
  | f :: fs => by
    rw [Shape.fields, moreFields, moreFields, moreFields_shape fs, field_shape f]

end

end Layout

/-! ## Texts -/

theorem format_shape (b : Block) : format (Shape.block b) = format b := by
  rw [format, format, ← Parens.shape_block, Layout.block_shape]

theorem format_eq_of_shape_eq {b b' : Block} (h : Shape.block b = Shape.block b') :
    format b = format b' := by
  rw [← format_shape, h, format_shape]

end LuaSource
