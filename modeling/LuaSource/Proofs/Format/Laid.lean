-- SUMMARY: Along the layout of a node its children are printed.
import LuaSource.Proofs.Format.Stacked

/-!
# Laid out trees

What the layout of a node writes begins with the tokens of its word, whichever word of the node that
is. The children of the node are printed in turn along it, and the statements of a block are
stacked. The proof follows the tree.
-/

namespace LuaSource.Printing

open Placing

mutual

theorem stacks_block (b : Block) {d : Nat} {start : Position} {k : List Piece}
    (hk : NoSemicolon k) :
    Stacks d (block start b) true b.statements (Layout.block d b k) k :=
  match b with
  | ⟨ss, span⟩ => by
    rw [block, Layout.block]
    exact fun p u hu => stacks_statements ss none hk p u (provided_le _ _ hu)

/-- Statements behind another one, if there is one before them in their block. -/
theorem stacks_statements (ss : List Statement) (before : Option Statement) {d : Nat}
    {k : List Piece} (hk : NoSemicolon k) :
    Stacks d (marked Spelling.semicolons * statements before ss) before.isNone ss
      (Layout.statements d before.isNone ss k) k :=
  match ss with
  | [] => by
    rw [Layout.statements]
    exact stacks_nil hk
  | s :: ss => stacks_cons (fun _ => fits_statement s) (stacks_statements ss (some s) hk)

theorem fits_statement (s : Statement) {d : Nat} {k : List Piece} :
    Fits d (statement s) s.children (Layout.statement d s k) k :=
  match s with
  | .assign vs es _ => by
    rw [statement, Layout.statement, mul_assoc]
    exact .of_le (spanned_le _ _)
      (.mul (fits_targets vs).lays (.skip lays_spaced (fits_expressions es)))
  | .localAssign ns [] _ => by
    rw [statement, Layout.statement, assigned, mul_one]
    refine .of_le (spanned_le _ _) (.skip lays_word ?_)
    rw [Statement.children, List.map_nil, List.append_nil]
    exact fits_names ns
  | .localAssign ns (e :: es) _ => by
    rw [statement, Layout.statement, assigned, mul_assoc, mul_assoc (symbol .assign)]
    exact .of_le (spanned_le _ _)
      (.skip lays_word (.mul (lays_names ns) (.skip lays_spaced (fits_expressions (e :: es)))))
  | .call c => by
    rw [statement, Layout.statement]
    exact (fits_call c).call
  | .doBlock b _ => by
    rw [statement, Layout.statement]
    exact .of_le (spanned_le _ _) (fits_body (stacks_block b))
  | .whileLoop e b _ => by
    rw [statement, Layout.statement]
    simp only [mul_assoc]
    exact .of_le (spanned_le _ _) (.skip lays_word
      (.mul (fits_expression e).expression.lays (.blank rfl (fits_body (stacks_block b)))))
  | .repeatLoop b e _ => by
    rw [statement, Layout.statement, mul_assoc]
    have hk : NoSemicolon (.indent d :: Layout.word .kwUntil (Layout.expression d e k)) :=
      noSemicolon_indent (noSemicolon_symbol nofun)
    exact .of_le (spanned_le _ _) (.mul (lays_body (stacks_block b) hk)
      (.blank rfl (.skip lays_word (fits_expression e).expression)))
  | .conditional cs none _ => by
    rw [statement, Layout.statement, otherwise, mul_one]
    exact .of_le (spanned_le _ _)
      (.mul (lays_clauses cs (noSemicolon_symbol nofun)) .symbol)
  | .conditional cs (some b) _ => by
    rw [statement, Layout.statement, otherwise, mul_assoc]
    exact .of_le (spanned_le _ _)
      (.mul (lays_clauses cs (noSemicolon_symbol nofun)) (fits_body (stacks_block b)))
  | .numericFor n start limit none b _ => by
    rw [statement, Layout.statement, step, mul_one]
    simp only [mul_assoc]
    exact .of_le (spanned_le _ _) (.skip lays_word (.mul (lays_name n) (.skip lays_spaced
      (.mul (fits_expression start).expression.lays (.skip lays_comma
        (.mul (fits_expression limit).expression.lays
          (.blank rfl (fits_body (stacks_block b)))))))))
  | .numericFor n start limit (some e) b _ => by
    rw [statement, Layout.statement, step]
    simp only [mul_assoc]
    exact .of_le (spanned_le _ _) (.skip lays_word (.mul (lays_name n) (.skip lays_spaced
      (.mul (fits_expression start).expression.lays (.skip lays_comma
        (.mul (fits_expression limit).expression.lays (.skip lays_comma
          (.mul (fits_expression e).expression.lays
            (.blank rfl (fits_body (stacks_block b)))))))))))
  | .genericFor ns es b _ => by
    rw [statement, Layout.statement]
    simp only [mul_assoc]
    exact .of_le (spanned_le _ _) (.skip lays_word (.mul (lays_names ns) (.skip lays_spaced
      (.mul (fits_expressions es).lays (.blank rfl (fits_body (stacks_block b)))))))
  | .function f body _ => by
    rw [statement, Layout.statement, mul_assoc]
    exact .of_le (spanned_le _ _)
      (.skip lays_word (.mul (lays_functionName f) (fits_functionBody body).functionBody))
  | .localFunction n body _ => by
    rw [statement, Layout.statement, mul_assoc, mul_assoc]
    exact .of_le (spanned_le _ _) (.skip lays_word (.skip lays_word
      (.mul (lays_name n) (fits_functionBody body).functionBody)))
  | .label n _ => by
    rw [statement, Layout.statement, mul_assoc]
    exact .of_le (spanned_le _ _) (.skip lays_symbol (.stop (lays_name n) .symbol))
  | .jump n _ => by
    rw [statement, Layout.statement]
    exact .of_le (spanned_le _ _) (.skip lays_word (.name n))
  | .returnValues [] _ => by
    rw [statement, Layout.statement, values, mul_one]
    exact .of_le (spanned_le _ _) .symbol
  | .returnValues (e :: es) _ => by
    rw [statement, Layout.statement, values]
    exact .of_le (spanned_le _ _) (.skip lays_symbol (.blank rfl (fits_expressions (e :: es))))
  | .breakLoop _ => by
    rw [statement, Layout.statement]
    exact .of_le (spanned_le _ _) .symbol

/-- One clause or more, before what comes at the depth of the keywords. -/
theorem lays_clauses (cs : List Clause) {d : Nat} {k : List Piece} (hk : NoSemicolon k) :
    Lays d (clauses cs) (cs.flatMap Clause.children) (Layout.conditional d .kwIf cs k) k :=
  match cs with
  | [] => by
    rw [clauses]
    exact .zero
  | ⟨e, b, span⟩ :: cs => by
    rw [clauses, Layout.conditional, List.flatMap_cons]
    exact .mul (lays_clause (stacks_block b) (fun _ => (fits_expression e).expression)
      (noSemicolon_moreClauses cs hk)) (lays_moreClauses cs hk)

theorem lays_moreClauses (cs : List Clause) {d : Nat} {k : List Piece} (hk : NoSemicolon k) :
    Lays d (moreClauses cs) (cs.flatMap Clause.children)
      (Layout.conditional d .kwElseif cs k) k :=
  match cs with
  | [] => by
    rw [moreClauses, Layout.conditional]
    exact .nothing
  | ⟨e, b, span⟩ :: cs => by
    rw [moreClauses, Layout.conditional, List.flatMap_cons]
    exact .mul (lays_clause (stacks_block b) (fun _ => (fits_expression e).expression)
      (noSemicolon_moreClauses cs hk)) (lays_moreClauses cs hk)

theorem fits_functionBody (f : FunctionBody) {d : Nat} {k : List Piece} :
    Fits d (functionBody f) (Node.functionBody f).children (Layout.functionBody d f k) k :=
  match f with
  | ⟨ns, hasVarargs, b, _⟩ => by
    rw [functionBody, Layout.functionBody]
    simp only [mul_assoc]
    exact .of_le (spanned_le _ _) (.skip lays_symbol
      (.mul (lays_parameters ns hasVarargs) (fits_body (stacks_block b))))

theorem fits_expression (e : Expression) {d : Nat} {k : List Piece} :
    Fits d (expression e) e.children (Layout.expression d e k) k :=
  match e with
  | .nil _ | .boolean _ _ | .varargs _ => by
    rw [expression, Layout.expression]
    exact .of_le (spanned_le _ _) .symbol
  | .number _ _ | .string _ _ => by
    rw [expression, Layout.expression]
    exact .of_le (spanned_le _ _) (.piece rfl)
  | .function body _ => by
    rw [expression, Layout.expression]
    exact .of_le (spanned_le _ _) (.skip lays_symbol (fits_functionBody body).functionBody)
  | .primary p => by
    rw [expression, Layout.expression]
    exact (fits_primary p).primary
  | .table t => by
    rw [expression, Layout.expression]
    exact fits_table t
  | .binary _ left right _ => by
    rw [expression, Layout.expression, mul_assoc]
    exact .of_le (spanned_le _ _) (.mul (fits_expression left).expression.lays
      (.skip lays_spaced (fits_expression right).expression))
  | .unary op operand _ => by
    rw [expression, Layout.expression]
    exact .of_le (spanned_le _ _)
      (.skip (lays_unaryOperator op) (fits_expression operand).expression)

theorem fits_expressions (es : List Expression) {d : Nat} {k : List Piece} :
    Fits d (expressions es) (es.map .expression) (Layout.expressions d es k) k :=
  match es with
  | [] => by
    rw [expressions]
    exact .zero
  | [e] => by
    rw [expressions, moreExpressions, mul_one, Layout.expressions, Layout.moreExpressions]
    exact (fits_expression e).expression
  | e :: e' :: es => by
    rw [expressions, moreExpressions, mul_assoc, Layout.expressions, Layout.moreExpressions]
    exact .mul (fits_expression e).expression.lays (.skip lays_comma (fits_expressions (e' :: es)))

theorem fits_primary (p : Primary) {d : Nat} {k : List Piece} :
    Fits d (primary p) p.children (Layout.primary d p k) k :=
  match p with
  | .var v => by
    rw [primary, Layout.primary]
    exact (fits_target v).target
  | .call c => by
    rw [primary, Layout.primary]
    exact (fits_call c).call
  | .parenthesized e _ => by
    rw [primary, Layout.primary, mul_assoc]
    exact .of_le (spanned_le _ _)
      (.skip lays_symbol (.stop (fits_expression e).expression.lays .symbol))

theorem fits_target (v : Variable) {d : Nat} {k : List Piece} :
    Fits d (target v) v.children (Layout.target d v k) k :=
  match v with
  | .name n => by
    rw [target, Layout.target]
    exact .name n
  | .index base key _ => by
    rw [target, Layout.target, mul_assoc, mul_assoc]
    exact .of_le (spanned_le _ _) (.mul (fits_primary base).primary.lays
      (.skip lays_symbol (.stop (fits_expression key).expression.lays .symbol)))
  | .member base n _ => by
    rw [target, Layout.target, mul_assoc]
    exact .of_le (spanned_le _ _)
      (.mul (fits_primary base).primary.lays (.skip lays_symbol (.name n)))

theorem fits_targets (vs : List Variable) {d : Nat} {k : List Piece} :
    Fits d (targets vs) (vs.map .target) (Layout.targets d vs k) k :=
  match vs with
  | [] => by
    rw [targets]
    exact .zero
  | [v] => by
    rw [targets, moreTargets, mul_one, Layout.targets, Layout.moreTargets]
    exact (fits_target v).target
  | v :: v' :: vs => by
    rw [targets, moreTargets, mul_assoc, Layout.targets, Layout.moreTargets]
    exact .mul (fits_target v).target.lays (.skip lays_comma (fits_targets (v' :: vs)))

theorem fits_call (c : Call) {d : Nat} {k : List Piece} :
    Fits d (call c) c.children (Layout.call d c k) k :=
  match c with
  | .function callee args _ => by
    rw [call, Layout.call]
    exact .of_le (spanned_le _ _)
      (.mul (fits_primary callee).primary.lays (fits_arguments args).arguments)
  | .method receiver n args _ => by
    rw [call, Layout.call]
    simp only [mul_assoc]
    exact .of_le (spanned_le _ _) (.mul (fits_primary receiver).primary.lays
      (.skip lays_symbol (.mul (lays_name n) (fits_arguments args).arguments)))

theorem fits_arguments (a : Arguments) {d : Nat} {k : List Piece} :
    Fits d (arguments a) a.children (Layout.arguments d a k) k :=
  match a with
  | .list [] _ => by
    rw [arguments, Layout.arguments, values, mul_one, Layout.expressions]
    exact .of_le (spanned_le _ _) (.skip (Fits.piece rfl).lays .symbol)
  | .list (e :: es) _ => by
    rw [arguments, Layout.arguments, values, mul_assoc]
    exact .of_le (spanned_le _ _) (.skip (Fits.piece rfl).lays
      (.stop (fits_expressions (e :: es)).lays .symbol))
  | .table t => by
    rw [arguments, Layout.arguments]
    exact fits_table t
  | .string _ _ => by
    rw [arguments, Layout.arguments]
    exact .of_le (spanned_le _ _) (.piece rfl)

theorem fits_table (t : Table) {d : Nat} {k : List Piece} :
    Fits d (table t) (t.fields.map .field) (Layout.table d t k) k :=
  match t with
  | ⟨fs, _⟩ => by
    rw [table, Layout.table.eq_def, mul_assoc]
    exact .of_le (spanned_le _ _) (.skip lays_symbol (fits_fields fs))

/-- The fields of a table and its closing brace. -/
theorem fits_fields (fs : List Field) {d : Nat} {k : List Piece} :
    Fits d (fields fs * symbol .rightBrace) (fs.map .field)
      (match fs with
      | [] => .symbol .rightBrace :: k
      | f :: fs => .space ::
          Layout.field d f (Layout.moreFields d fs (.space :: .symbol .rightBrace :: k))) k :=
  match fs with
  | [] => by
    rw [fields, one_mul]
    exact .symbol
  | [f] => by
    rw [fields, mul_assoc]
    exact .blank rfl (.stop (fits_field f).field.lays fits_closingBrace)
  | f :: g :: fs => by
    have hmore : (if (g :: fs).isEmpty then (1 : Language Mark) else 0) = 0 := rfl
    rw [fields, hmore, add_zero, mul_assoc, mul_assoc]
    exact .blank rfl
      (.mul (fits_field f).field.lays (.skip lays_fieldSeparator (fits_fields (g :: fs))))

theorem fits_field (f : Field) {d : Nat} {k : List Piece} :
    Fits d (field f) f.children (Layout.field d f k) k :=
  match f with
  | .keyed key value _ => by
    rw [field, Layout.field]
    simp only [mul_assoc]
    exact .of_le (spanned_le _ _) (.skip lays_symbol (.mul (fits_expression key).expression.lays
      (.skip lays_symbol (.skip lays_spaced (fits_expression value).expression))))
  | .named n value _ => by
    rw [field, Layout.field, mul_assoc]
    exact .of_le (spanned_le _ _)
      (.mul (lays_name n) (.skip lays_spaced (fits_expression value).expression))
  | .positional value => by
    rw [field, Layout.field]
    exact (fits_expression value).expression

end

end LuaSource.Printing
