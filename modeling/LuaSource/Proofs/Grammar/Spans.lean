-- SUMMARY: A tree is spelled as its shape is.
import LuaSource.Proofs.Grammar.Spelling
import LuaSource.Proofs.Tree.Spans

/-!
# Spelling shapes

Spans play no part in how a tree is spelled.
-/

namespace LuaSource.Shape

theorem endsOpen_expression (e : Expression) : (expression e).endsOpen = e.endsOpen := by
  cases e with
  | binary operator left right span =>
    rw [expression, Expression.endsOpen, Expression.endsOpen, endsOpen_expression right]
  | unary operator operand span =>
    rw [expression, Expression.endsOpen, Expression.endsOpen, endsOpen_expression operand]
  | _ => rfl

theorem endsOpen_statement (s : Statement) : (statement s).endsOpen = s.endsOpen := by
  have hlast : ∀ es : List Expression,
      (expressions es).getLast?.any Expression.endsOpen = es.getLast?.any Expression.endsOpen := by
    intro es
    rw [expressions_eq_map, List.getLast?_map]
    cases es.getLast? with
    | none => rfl
    | some e => exact endsOpen_expression e
  cases s with
  | assign vs es span => exact hlast es
  | localAssign ns es span => exact hlast es
  | repeatLoop b e span => exact endsOpen_expression e
  | _ => rfl

/-! ## Names -/

theorem spelling_name (n : Name) : Spelling.name (name n) = Spelling.name n := rfl

theorem series_map {α β : Type} (separator : Symbol) (item : β → Language Letter) (f : α → β)
    (as : List α) :
    Spelling.series separator item (as.map f) = Spelling.series separator (item ∘ f) as := by
  induction as with
  | nil => rfl
  | cons a as ih => rw [List.map_cons, Spelling.series, Spelling.series, ih, Function.comp_apply]

theorem list_map {α β : Type} (separator : Symbol) (item : β → Language Letter) (f : α → β)
    (as : List α) :
    Spelling.list separator item (as.map f) = Spelling.list separator (item ∘ f) as := by
  cases as with
  | nil => rfl
  | cons a as => rw [List.map_cons, Spelling.list, Spelling.list, series_map, Function.comp_apply]

theorem spelling_names (ns : List Name) : Spelling.names (ns.map name) = Spelling.names ns :=
  list_map _ _ _ ns

theorem spelling_path (ns : List Name) : Spelling.path (ns.map name) = Spelling.path ns :=
  list_map _ _ _ ns

theorem spelling_functionName (f : FunctionName) :
    Spelling.functionName (functionName f) = Spelling.functionName f := by
  obtain ⟨ns, isMethod, span⟩ := f
  simp only [functionName, Spelling.functionName, List.getLast?_map, ← List.map_dropLast,
    spelling_path]
  cases ns.getLast? <;> rfl

theorem spelling_parameters (ns : List Name) (hasVarargs : Bool) :
    Spelling.parameters (ns.map name) hasVarargs = Spelling.parameters ns hasVarargs := by
  cases ns with
  | nil => rfl
  | cons n ns =>
    have hnames := spelling_names (n :: ns)
    rw [List.map_cons] at hnames ⊢
    cases hasVarargs <;> rw [Spelling.parameters, Spelling.parameters, hnames]

/-! ## Nodes -/

mutual

theorem spelling_block (b : Block) : Spelling.block (block b) = Spelling.block b :=
  match b with
  | ⟨ss, _⟩ => by
    rw [block, Spelling.block, Spelling.block]
    exact congrArg _ (spelling_statements none ss)

theorem spelling_statements (before : Option Statement) (ss : List Statement) :
    Spelling.statements (before.map statement) (statements ss) = Spelling.statements before ss :=
  match ss with
  | [] => rfl
  | s :: ss => by
    have hseparation : Spelling.separation (before.map statement) (statement s) =
        Spelling.separation before s := by
      cases before with
      | none => rfl
      | some b =>
        simp only [Spelling.separation, Option.map_some, Option.any_some, endsOpen_statement,
          startsWithParen_statement]
    have htrail : Spelling.trail (statement s) = Spelling.trail s := by
      rw [Spelling.trail, Spelling.trail, isLast_statement]
    rw [statements, Spelling.statements, Spelling.statements, hseparation, htrail,
      spelling_statement s]
    exact congrArg _ (spelling_statements (some s) ss)

theorem spelling_statement (s : Statement) :
    Spelling.statement (statement s) = Spelling.statement s :=
  match s with
  | .assign vs es _ => by
    rw [statement, Spelling.statement, Spelling.statement, spelling_targets vs,
      spelling_expressions es]
  | .localAssign ns es _ => by
    rw [statement, Spelling.statement, Spelling.statement, spelling_names ns, spelling_assigned es]
  | .call c => by rw [statement, Spelling.statement, Spelling.statement, spelling_call c]
  | .doBlock b _ => by rw [statement, Spelling.statement, Spelling.statement, spelling_block b]
  | .whileLoop e b _ | .repeatLoop b e _ => by
    rw [statement, Spelling.statement, Spelling.statement, spelling_expression e, spelling_block b]
  | .conditional cs b _ => by
    rw [statement, Spelling.statement, Spelling.statement, spelling_clauses cs,
      spelling_otherwise b]
  | .numericFor n start limit e b _ => by
    rw [statement, Spelling.statement, Spelling.statement, spelling_name n,
      spelling_expression start, spelling_expression limit, spelling_step e, spelling_block b]
  | .genericFor ns es b _ => by
    rw [statement, Spelling.statement, Spelling.statement, spelling_names ns,
      spelling_expressions es, spelling_block b]
  | .function f body _ => by
    rw [statement, Spelling.statement, Spelling.statement, spelling_functionName f,
      spelling_functionBody body]
  | .localFunction n body _ => by
    rw [statement, Spelling.statement, Spelling.statement, spelling_name n,
      spelling_functionBody body]
  | .label n _ | .jump n _ => by
    rw [statement, Spelling.statement, Spelling.statement, spelling_name n]
  | .returnValues es _ => by
    rw [statement, Spelling.statement, Spelling.statement, spelling_values es]
  | .breakLoop _ => rfl

theorem spelling_assigned (es : List Expression) :
    Spelling.assigned (expressions es) = Spelling.assigned es :=
  match es with
  | [] => rfl
  | e :: es => by
    rw [expressions, Spelling.assigned, Spelling.assigned, spelling_expression e,
      spelling_moreExpressions es]

theorem spelling_step (e : Option Expression) : Spelling.step (step e) = Spelling.step e :=
  match e with
  | none => rfl
  | some e => by rw [step, Spelling.step, Spelling.step, spelling_expression e]

theorem spelling_otherwise (b : Option Block) :
    Spelling.otherwise (otherwise b) = Spelling.otherwise b :=
  match b with
  | none => rfl
  | some b => by rw [otherwise, Spelling.otherwise, Spelling.otherwise, spelling_block b]

theorem spelling_clauses (cs : List Clause) : Spelling.clauses (clauses cs) = Spelling.clauses cs :=
  match cs with
  | [] => rfl
  | c :: cs => by
    rw [clauses, Spelling.clauses, Spelling.clauses, spelling_clause c, spelling_moreClauses cs]

theorem spelling_moreClauses (cs : List Clause) :
    Spelling.moreClauses (clauses cs) = Spelling.moreClauses cs :=
  match cs with
  | [] => rfl
  | c :: cs => by
    rw [clauses, Spelling.moreClauses, Spelling.moreClauses, spelling_clause c,
      spelling_moreClauses cs]

theorem spelling_clause (c : Clause) : Spelling.clause (clause c) = Spelling.clause c :=
  match c with
  | ⟨e, b, _⟩ => by
    rw [clause, Spelling.clause, Spelling.clause, spelling_expression e, spelling_block b]

theorem spelling_functionBody (f : FunctionBody) :
    Spelling.functionBody (functionBody f) = Spelling.functionBody f :=
  match f with
  | ⟨ns, hasVarargs, b, _⟩ => by
    rw [functionBody, Spelling.functionBody, Spelling.functionBody, spelling_parameters,
      spelling_block b]

theorem spelling_expression (e : Expression) :
    Spelling.expression (expression e) = Spelling.expression e :=
  match e with
  | .nil _ | .boolean _ _ | .number _ _ | .string _ _ | .varargs _ => rfl
  | .function body _ => by
    rw [expression, Spelling.expression, Spelling.expression, spelling_functionBody body]
  | .primary p => by rw [expression, Spelling.expression, Spelling.expression, spelling_primary p]
  | .table t => by rw [expression, Spelling.expression, Spelling.expression, spelling_table t]
  | .binary _ left right _ => by
    rw [expression, Spelling.expression, Spelling.expression, spelling_expression left,
      spelling_expression right]
  | .unary _ operand _ => by
    rw [expression, Spelling.expression, Spelling.expression, spelling_expression operand]

theorem spelling_expressions (es : List Expression) :
    Spelling.expressions (expressions es) = Spelling.expressions es :=
  match es with
  | [] => rfl
  | e :: es => by
    rw [expressions, Spelling.expressions, Spelling.expressions, spelling_expression e,
      spelling_moreExpressions es]

theorem spelling_values (es : List Expression) :
    Spelling.values (expressions es) = Spelling.values es :=
  match es with
  | [] => rfl
  | e :: es => by
    rw [expressions, Spelling.values, Spelling.values, spelling_expression e,
      spelling_moreExpressions es]

theorem spelling_moreExpressions (es : List Expression) :
    Spelling.moreExpressions (expressions es) = Spelling.moreExpressions es :=
  match es with
  | [] => rfl
  | e :: es => by
    rw [expressions, Spelling.moreExpressions, Spelling.moreExpressions, spelling_expression e,
      spelling_moreExpressions es]

theorem spelling_primary (p : Primary) : Spelling.primary (primary p) = Spelling.primary p :=
  match p with
  | .var v => by rw [primary, Spelling.primary, Spelling.primary, spelling_target v]
  | .call c => by rw [primary, Spelling.primary, Spelling.primary, spelling_call c]
  | .parenthesized e _ => by
    rw [primary, Spelling.primary, Spelling.primary, spelling_expression e]

theorem spelling_target (v : Variable) : Spelling.target (target v) = Spelling.target v :=
  match v with
  | .name n => by rw [target, Spelling.target, Spelling.target, spelling_name n]
  | .index base key _ => by
    rw [target, Spelling.target, Spelling.target, spelling_primary base, spelling_expression key]
  | .member base n _ => by
    rw [target, Spelling.target, Spelling.target, spelling_primary base, spelling_name n]

theorem spelling_targets (vs : List Variable) :
    Spelling.targets (targets vs) = Spelling.targets vs :=
  match vs with
  | [] => rfl
  | v :: vs => by
    rw [targets, Spelling.targets, Spelling.targets, spelling_target v, spelling_moreTargets vs]

theorem spelling_moreTargets (vs : List Variable) :
    Spelling.moreTargets (targets vs) = Spelling.moreTargets vs :=
  match vs with
  | [] => rfl
  | v :: vs => by
    rw [targets, Spelling.moreTargets, Spelling.moreTargets, spelling_target v,
      spelling_moreTargets vs]

theorem spelling_call (c : Call) : Spelling.call (call c) = Spelling.call c :=
  match c with
  | .function callee args _ => by
    rw [call, Spelling.call, Spelling.call, spelling_primary callee, spelling_arguments args]
  | .method receiver n args _ => by
    rw [call, Spelling.call, Spelling.call, spelling_primary receiver, spelling_name n,
      spelling_arguments args]

theorem spelling_arguments (a : Arguments) :
    Spelling.arguments (arguments a) = Spelling.arguments a :=
  match a with
  | .list es _ => by
    rw [arguments, Spelling.arguments, Spelling.arguments, spelling_values es]
  | .table t => by rw [arguments, Spelling.arguments, Spelling.arguments, spelling_table t]
  | .string _ _ => rfl

theorem spelling_table (t : Table) : Spelling.table (table t) = Spelling.table t :=
  match t with
  | ⟨fs, _⟩ => by rw [table, Spelling.table, Spelling.table, spelling_fields fs]

theorem spelling_fields (fs : List Field) : Spelling.fields (fields fs) = Spelling.fields fs :=
  match fs with
  | [] => rfl
  | f :: fs => by
    rw [fields, Spelling.fields, Spelling.fields, spelling_field f, spelling_moreFields fs]

theorem spelling_moreFields (fs : List Field) :
    Spelling.moreFields (fields fs) = Spelling.moreFields fs :=
  match fs with
  | [] => rfl
  | f :: fs => by
    rw [fields, Spelling.moreFields, Spelling.moreFields, spelling_field f,
      spelling_moreFields fs]

theorem spelling_field (f : Field) : Spelling.field (field f) = Spelling.field f :=
  match f with
  | .keyed key value _ => by
    rw [field, Spelling.field, Spelling.field, spelling_expression key, spelling_expression value]
  | .named n value _ => by
    rw [field, Spelling.field, Spelling.field, spelling_name n, spelling_expression value]
  | .positional value => by
    rw [field, Spelling.field, Spelling.field, spelling_expression value]

end

end LuaSource.Shape
