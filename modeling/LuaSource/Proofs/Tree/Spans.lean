-- SUMMARY: What is said of trees without regard to spans holds of their shapes as well.
import LuaSource.Tree
import LuaSource.Proofs.Tree.Conditions
import LuaSource.Proofs.Tree.Need
import LuaSource.Proofs.Tree.Shape

/-!
# Spans play no part

A tree needs as many levels as its shape does, starts with a parenthesis if its shape does, and
is grammatical if its shape is.
-/

namespace LuaSource.Shape

/-! ## Statements -/

mutual

theorem startsWithParen_primary (p : Primary) :
    (primary p).startsWithParen = p.startsWithParen :=
  match p with
  | .var v => by
    rw [primary, Primary.startsWithParen, Primary.startsWithParen, startsWithParen_target v]
  | .call c => by
    rw [primary, Primary.startsWithParen, Primary.startsWithParen, startsWithParen_call c]
  | .parenthesized _ _ => by rw [primary, Primary.startsWithParen, Primary.startsWithParen]

theorem startsWithParen_target (v : Variable) : (target v).startsWithParen = v.startsWithParen :=
  match v with
  | .name _ => by rw [target, Variable.startsWithParen, Variable.startsWithParen]
  | .index base _ _ | .member base _ _ => by
    rw [target, Variable.startsWithParen, Variable.startsWithParen, startsWithParen_primary base]

theorem startsWithParen_call (c : Call) : (call c).startsWithParen = c.startsWithParen :=
  match c with
  | .function callee _ _ => by
    rw [call, Call.startsWithParen, Call.startsWithParen, startsWithParen_primary callee]
  | .method receiver _ _ _ => by
    rw [call, Call.startsWithParen, Call.startsWithParen, startsWithParen_primary receiver]

end

theorem startsWithParen_statement (s : Statement) :
    (statement s).startsWithParen = s.startsWithParen := by
  cases s with
  | assign vs es span =>
    cases vs with
    | nil => rfl
    | cons v vs => exact startsWithParen_target v
  | call c => exact startsWithParen_call c
  | _ => rfl

/-! ## Operands -/

theorem needsParensBefore_expression (op : BinaryOperator) (e : Expression) :
    (expression e).needsParensBefore op = e.needsParensBefore op := by
  cases e <;> rw [expression] <;> rfl

theorem needsParensBehind_expression (limit : Nat) (e : Expression) :
    (expression e).needsParensBehind limit = e.needsParensBehind limit := by
  cases e <;> rw [expression] <;> rfl

theorem isGrouped_expression (e : Expression) : (expression e).IsGrouped ↔ e.IsGrouped := by
  cases e with
  | binary op left right span =>
    rw [expression, Expression.IsGrouped, Expression.IsGrouped, needsParensBefore_expression,
      needsParensBehind_expression]
  | unary op operand span =>
    rw [expression, Expression.IsGrouped, Expression.IsGrouped, needsParensBehind_expression]
  | _ => rfl

/-! ## Levels -/

mutual

theorem need_block (b : Block) : Need.block (block b) = Need.block b :=
  match b with
  | ⟨ss, _⟩ => by rw [block, Need.block, Need.block, need_statements ss]

theorem need_statements (ss : List Statement) :
    Need.statements (statements ss) = Need.statements ss :=
  match ss with
  | [] => rfl
  | s :: ss => by
    rw [statements, Need.statements, Need.statements, need_statement s, need_statements ss]

theorem need_statement (s : Statement) : Need.statement (statement s) = Need.statement s :=
  match s with
  | .assign vs es _ => by
    rw [statement, Need.statement, Need.statement, need_targets vs, need_expressions es]
  | .localAssign _ es _ | .returnValues es _ => by
    rw [statement, Need.statement, Need.statement, need_expressions es]
  | .call c => by rw [statement, Need.statement, Need.statement, need_call c]
  | .doBlock b _ => by rw [statement, Need.statement, Need.statement, need_block b]
  | .whileLoop e b _ | .repeatLoop b e _ => by
    rw [statement, Need.statement, Need.statement, need_expression e, need_block b]
  | .conditional cs b _ => by
    rw [statement, Need.statement, Need.statement, need_clauses cs, need_otherwise b]
  | .numericFor _ start limit e b _ => by
    rw [statement, Need.statement, Need.statement, need_expression start, need_expression limit,
      need_step e, need_block b]
  | .genericFor _ es b _ => by
    rw [statement, Need.statement, Need.statement, need_expressions es, need_block b]
  | .function _ body _ | .localFunction _ body _ => by
    rw [statement, Need.statement, Need.statement, need_functionBody body]
  | .label _ _ | .jump _ _ | .breakLoop _ => by
    rw [statement, Need.statement, Need.statement]

theorem need_step (e : Option Expression) : Need.step (step e) = Need.step e :=
  match e with
  | none => rfl
  | some e => by rw [step, Need.step, Need.step, need_expression e]

theorem need_otherwise (b : Option Block) : Need.otherwise (otherwise b) = Need.otherwise b :=
  match b with
  | none => rfl
  | some b => by rw [otherwise, Need.otherwise, Need.otherwise, need_block b]

theorem need_clauses (cs : List Clause) : Need.clauses (clauses cs) = Need.clauses cs :=
  match cs with
  | [] => rfl
  | c :: cs => by rw [clauses, Need.clauses, Need.clauses, need_clause c, need_clauses cs]

theorem need_clause (c : Clause) : Need.clause (clause c) = Need.clause c :=
  match c with
  | ⟨e, b, _⟩ => by rw [clause, Need.clause, Need.clause, need_expression e, need_block b]

theorem need_functionBody (f : FunctionBody) :
    Need.functionBody (functionBody f) = Need.functionBody f :=
  match f with
  | ⟨_, _, b, _⟩ => by rw [functionBody, Need.functionBody, Need.functionBody, need_block b]

theorem need_expression (e : Expression) : Need.expression (expression e) = Need.expression e :=
  match e with
  | .nil _ | .boolean _ _ | .number _ _ | .string _ _ | .varargs _ => by
    rw [expression, Need.expression, Need.expression]
  | .function body _ => by
    rw [expression, Need.expression, Need.expression, need_functionBody body]
  | .primary p => by rw [expression, Need.expression, Need.expression, need_primary p]
  | .table t => by rw [expression, Need.expression, Need.expression, need_table t]
  | .binary _ left right _ => by
    rw [expression, Need.expression, Need.expression, need_expression left, need_expression right]
  | .unary _ operand _ => by
    rw [expression, Need.expression, Need.expression, need_expression operand]

theorem need_expressions (es : List Expression) :
    Need.expressions (expressions es) = Need.expressions es :=
  match es with
  | [] => rfl
  | e :: es => by
    rw [expressions, Need.expressions, Need.expressions, need_expression e, need_expressions es]

theorem need_primary (p : Primary) : Need.primary (primary p) = Need.primary p :=
  match p with
  | .var v => by rw [primary, Need.primary, Need.primary, need_target v]
  | .call c => by rw [primary, Need.primary, Need.primary, need_call c]
  | .parenthesized e _ => by rw [primary, Need.primary, Need.primary, need_expression e]

theorem need_target (v : Variable) : Need.target (target v) = Need.target v :=
  match v with
  | .name _ => by rw [target, Need.target, Need.target]
  | .index base key _ => by
    rw [target, Need.target, Need.target, need_primary base, need_expression key]
  | .member base _ _ => by rw [target, Need.target, Need.target, need_primary base]

theorem need_targets (vs : List Variable) : Need.targets (targets vs) = Need.targets vs :=
  match vs with
  | [] => rfl
  | v :: vs => by rw [targets, Need.targets, Need.targets, need_target v, need_targets vs]

theorem need_call (c : Call) : Need.call (call c) = Need.call c :=
  match c with
  | .function callee args _ => by
    rw [call, Need.call, Need.call, need_primary callee, need_arguments args]
  | .method receiver _ args _ => by
    rw [call, Need.call, Need.call, need_primary receiver, need_arguments args]

theorem need_arguments (a : Arguments) : Need.arguments (arguments a) = Need.arguments a :=
  match a with
  | .list es _ => by rw [arguments, Need.arguments, Need.arguments, need_expressions es]
  | .table t => by rw [arguments, Need.arguments, Need.arguments, need_table t]
  | .string _ _ => by rw [arguments, Need.arguments, Need.arguments]

theorem need_table (t : Table) : Need.table (table t) = Need.table t :=
  match t with
  | ⟨fs, _⟩ => by rw [table, Need.table, Need.table, need_fields fs]

theorem need_fields (fs : List Field) : Need.fields (fields fs) = Need.fields fs :=
  match fs with
  | [] => rfl
  | f :: fs => by rw [fields, Need.fields, Need.fields, need_field f, need_fields fs]

theorem need_field (f : Field) : Need.field (field f) = Need.field f :=
  match f with
  | .keyed key value _ => by
    rw [field, Need.field, Need.field, need_expression key, need_expression value]
  | .named _ value _ | .positional value => by
    rw [field, Need.field, Need.field, need_expression value]

end

/-! ## Conditions -/

/-- A condition that asks nothing of spans. -/
structure IsSpanless (c : Condition) : Prop where
  statements : ∀ ss, c.statements (statements ss) ↔ c.statements ss
  statement : ∀ s, c.statement (statement s) ↔ c.statement s
  expression : ∀ e, c.expression (expression e) ↔ c.expression e
  name : ∀ n, c.name (name n) ↔ c.name n

variable {c : Condition}

theorem everywhere_names (h : IsSpanless c) (ns : List Name) :
    Everywhere.names c (ns.map name) ↔ Everywhere.names c ns := by
  rw [Everywhere.names, List.forall_mem_map]
  exact forall₂_congr fun n _ => h.name n

mutual

theorem everywhere_block (h : IsSpanless c) (b : Block) :
    Everywhere.block c (block b) ↔ Everywhere.block c b :=
  match b with
  | ⟨ss, _⟩ => by
    rw [block, Everywhere.block, Everywhere.block, h.statements, everywhere_statements h ss]

theorem everywhere_statements (h : IsSpanless c) (ss : List Statement) :
    Everywhere.statements c (statements ss) ↔ Everywhere.statements c ss :=
  match ss with
  | [] => .rfl
  | s :: ss => by
    rw [statements, Everywhere.statements, Everywhere.statements, everywhere_statement h s,
      everywhere_statements h ss]

theorem everywhere_statement (h : IsSpanless c) (s : Statement) :
    Everywhere.statement c (statement s) ↔ Everywhere.statement c s :=
  match s with
  | .assign vs es span => and_congr (h.statement (.assign vs es span))
      (and_congr (everywhere_targets h vs) (everywhere_expressions h es))
  | .localAssign ns es span => and_congr (h.statement (.localAssign ns es span))
      (and_congr (everywhere_names h ns) (everywhere_expressions h es))
  | .call f => and_congr (h.statement (.call f)) (everywhere_call h f)
  | .doBlock b span => and_congr (h.statement (.doBlock b span)) (everywhere_block h b)
  | .whileLoop e b span => and_congr (h.statement (.whileLoop e b span))
      (and_congr (everywhere_expression h e) (everywhere_block h b))
  | .repeatLoop b e span => and_congr (h.statement (.repeatLoop b e span))
      (and_congr (everywhere_expression h e) (everywhere_block h b))
  | .conditional cs b span => and_congr (h.statement (.conditional cs b span))
      (and_congr (everywhere_clauses h cs) (everywhere_otherwise h b))
  | .numericFor n start limit e b span =>
    and_congr (h.statement (.numericFor n start limit e b span))
      (and_congr (h.name n) (and_congr (everywhere_expression h start)
        (and_congr (everywhere_expression h limit)
          (and_congr (everywhere_step h e) (everywhere_block h b)))))
  | .genericFor ns es b span => and_congr (h.statement (.genericFor ns es b span))
      (and_congr (everywhere_names h ns)
        (and_congr (everywhere_expressions h es) (everywhere_block h b)))
  | .function f body span => and_congr (h.statement (.function f body span))
      (and_congr (everywhere_names h f.path) (everywhere_functionBody h body))
  | .localFunction n body span => and_congr (h.statement (.localFunction n body span))
      (and_congr (h.name n) (everywhere_functionBody h body))
  | .label n span => and_congr (h.statement (.label n span)) (h.name n)
  | .jump n span => and_congr (h.statement (.jump n span)) (h.name n)
  | .returnValues es span => and_congr (h.statement (.returnValues es span))
      (everywhere_expressions h es)
  | .breakLoop span => and_congr (h.statement (.breakLoop span)) .rfl

theorem everywhere_step (h : IsSpanless c) (e : Option Expression) :
    Everywhere.step c (step e) ↔ Everywhere.step c e :=
  match e with
  | none => .rfl
  | some e => by rw [step, Everywhere.step, Everywhere.step, everywhere_expression h e]

theorem everywhere_otherwise (h : IsSpanless c) (b : Option Block) :
    Everywhere.otherwise c (otherwise b) ↔ Everywhere.otherwise c b :=
  match b with
  | none => .rfl
  | some b => by rw [otherwise, Everywhere.otherwise, Everywhere.otherwise, everywhere_block h b]

theorem everywhere_clauses (h : IsSpanless c) (cs : List Clause) :
    Everywhere.clauses c (clauses cs) ↔ Everywhere.clauses c cs :=
  match cs with
  | [] => .rfl
  | d :: ds => by
    rw [clauses, Everywhere.clauses, Everywhere.clauses, everywhere_clause h d,
      everywhere_clauses h ds]

theorem everywhere_clause (h : IsSpanless c) (d : Clause) :
    Everywhere.clause c (clause d) ↔ Everywhere.clause c d :=
  match d with
  | ⟨e, b, _⟩ => by
    rw [clause, Everywhere.clause, Everywhere.clause, everywhere_expression h e,
      everywhere_block h b]

theorem everywhere_functionBody (h : IsSpanless c) (f : FunctionBody) :
    Everywhere.functionBody c (functionBody f) ↔ Everywhere.functionBody c f :=
  match f with
  | ⟨ns, _, b, _⟩ => by
    rw [functionBody, Everywhere.functionBody, Everywhere.functionBody, everywhere_names h ns,
      everywhere_block h b]

theorem everywhere_expression (h : IsSpanless c) (e : Expression) :
    Everywhere.expression c (expression e) ↔ Everywhere.expression c e :=
  match e with
  | .nil span => and_congr (h.expression (.nil span)) .rfl
  | .boolean value span => and_congr (h.expression (.boolean value span)) .rfl
  | .number value span => and_congr (h.expression (.number value span)) .rfl
  | .string value span => and_congr (h.expression (.string value span)) .rfl
  | .varargs span => and_congr (h.expression (.varargs span)) .rfl
  | .function body span => and_congr (h.expression (.function body span))
      (everywhere_functionBody h body)
  | .primary p => and_congr (h.expression (.primary p)) (everywhere_primary h p)
  | .table t => and_congr (h.expression (.table t)) (everywhere_table h t)
  | .binary op left right span => and_congr (h.expression (.binary op left right span))
      (and_congr (everywhere_expression h left) (everywhere_expression h right))
  | .unary op operand span => and_congr (h.expression (.unary op operand span))
      (everywhere_expression h operand)

theorem everywhere_expressions (h : IsSpanless c) (es : List Expression) :
    Everywhere.expressions c (expressions es) ↔ Everywhere.expressions c es :=
  match es with
  | [] => .rfl
  | e :: es => by
    rw [expressions, Everywhere.expressions, Everywhere.expressions, everywhere_expression h e,
      everywhere_expressions h es]

theorem everywhere_primary (h : IsSpanless c) (p : Primary) :
    Everywhere.primary c (primary p) ↔ Everywhere.primary c p :=
  match p with
  | .var v => by rw [primary, Everywhere.primary, Everywhere.primary, everywhere_target h v]
  | .call f => by rw [primary, Everywhere.primary, Everywhere.primary, everywhere_call h f]
  | .parenthesized e _ => by
    rw [primary, Everywhere.primary, Everywhere.primary, everywhere_expression h e]

theorem everywhere_target (h : IsSpanless c) (v : Variable) :
    Everywhere.target c (target v) ↔ Everywhere.target c v :=
  match v with
  | .name n => by rw [target, Everywhere.target, Everywhere.target, h.name]
  | .index base key _ => by
    rw [target, Everywhere.target, Everywhere.target, everywhere_primary h base,
      everywhere_expression h key]
  | .member base n _ => by
    rw [target, Everywhere.target, Everywhere.target, everywhere_primary h base, h.name]

theorem everywhere_targets (h : IsSpanless c) (vs : List Variable) :
    Everywhere.targets c (targets vs) ↔ Everywhere.targets c vs :=
  match vs with
  | [] => .rfl
  | v :: vs => by
    rw [targets, Everywhere.targets, Everywhere.targets, everywhere_target h v,
      everywhere_targets h vs]

theorem everywhere_call (h : IsSpanless c) (f : Call) :
    Everywhere.call c (call f) ↔ Everywhere.call c f :=
  match f with
  | .function callee args _ => by
    rw [call, Everywhere.call, Everywhere.call, everywhere_primary h callee,
      everywhere_arguments h args]
  | .method receiver n args _ => by
    rw [call, Everywhere.call, Everywhere.call, everywhere_primary h receiver, h.name,
      everywhere_arguments h args]

theorem everywhere_arguments (h : IsSpanless c) (a : Arguments) :
    Everywhere.arguments c (arguments a) ↔ Everywhere.arguments c a :=
  match a with
  | .list es _ => by
    rw [arguments, Everywhere.arguments, Everywhere.arguments, everywhere_expressions h es]
  | .table t => by
    rw [arguments, Everywhere.arguments, Everywhere.arguments, everywhere_table h t]
  | .string _ _ => .rfl

theorem everywhere_table (h : IsSpanless c) (t : Table) :
    Everywhere.table c (table t) ↔ Everywhere.table c t :=
  match t with
  | ⟨fs, _⟩ => by rw [table, Everywhere.table, Everywhere.table, everywhere_fields h fs]

theorem everywhere_fields (h : IsSpanless c) (fs : List Field) :
    Everywhere.fields c (fields fs) ↔ Everywhere.fields c fs :=
  match fs with
  | [] => .rfl
  | f :: fs => by
    rw [fields, Everywhere.fields, Everywhere.fields, everywhere_field h f,
      everywhere_fields h fs]

theorem everywhere_field (h : IsSpanless c) (f : Field) :
    Everywhere.field c (field f) ↔ Everywhere.field c f :=
  match f with
  | .keyed key value _ => by
    rw [field, Everywhere.field, Everywhere.field, everywhere_expression h key,
      everywhere_expression h value]
  | .named n value _ => by
    rw [field, Everywhere.field, Everywhere.field, h.name, everywhere_expression h value]
  | .positional value => by
    rw [field, Everywhere.field, Everywhere.field, everywhere_expression h value]

end

theorem isSpanless_grammatical : IsSpanless grammatical where
  statements ss := by
    show lastOnly (statements ss) ↔ lastOnly ss
    rw [lastOnly, statements_eq_map, ← List.map_dropLast, List.forall_mem_map]
    exact forall₂_congr fun s _ => by rw [isLast_statement]
  statement _ := .rfl
  expression := isGrouped_expression
  name _ := .rfl

end LuaSource.Shape
