-- SUMMARY: What the text of a negative number is read as.
import LuaSource.Proofs.Format.RoundTrip
import LuaSource.Proofs.Tree.SignedBases

/-!
# Written signs

The sign of a number is a character of its text, and is read as an operator. So the text of a tree
is that of the tree in which signs are operators that bind no tighter than powers, and this tree is
what it is parsed to. It is the tree with each sign right before its number if no base of a power
has a sign, since such a base is not put into parentheses.
-/

namespace LuaSource

namespace Piece

/-- A number with a sign as two pieces. -/
def splitSign : Piece → List Piece
  | number x => if x.negative && !x.isNaN then [symbol .minus, number x.abs] else [number x]
  | p => [p]

/-- Pieces with the signs of numbers as pieces of their own. -/
def splitSigns (ps : List Piece) : List Piece := ps.flatMap splitSign

@[simp] theorem splitSigns_nil : splitSigns [] = [] := rfl

theorem splitSigns_cons (p : Piece) (ps : List Piece) :
    splitSigns (p :: ps) = splitSign p ++ splitSigns ps := rfl

@[simp] theorem splitSigns_symbol (s : Symbol) (ps : List Piece) :
    splitSigns (symbol s :: ps) = symbol s :: splitSigns ps := rfl

@[simp] theorem splitSigns_name (text : String) (ps : List Piece) :
    splitSigns (name text :: ps) = name text :: splitSigns ps := rfl

@[simp] theorem splitSigns_space (ps : List Piece) :
    splitSigns (space :: ps) = space :: splitSigns ps := rfl

@[simp] theorem splitSigns_newline (ps : List Piece) :
    splitSigns (newline :: ps) = newline :: splitSigns ps := rfl

@[simp] theorem splitSigns_indent (depth : Nat) (ps : List Piece) :
    splitSigns (indent depth :: ps) = indent depth :: splitSigns ps := rfl

/-- The text of a negative number is a minus sign and the text of the number without it. -/
theorem write_of_negative {x : Double} (hnegative : x.negative = true) (hnan : x.isNaN = false) :
    Numeral.write x = '-' :: Numeral.write x.abs := by
  have hnan' : x.abs.isNaN = false := hnan
  rw [Numeral.write, Numeral.write, hnan, hnan', hnegative, if_neg Bool.false_ne_true, if_pos rfl,
    if_neg Bool.false_ne_true]
  rfl

theorem render_splitSign (p : Piece) : render (splitSign p) = p.text := by
  cases p with
  | number x =>
    rw [splitSign]
    split
    · next hx =>
      simp only [Bool.and_eq_true, Bool.not_eq_true'] at hx
      rw [text, write_of_negative hx.1 hx.2]
      exact congrArg (['-'] ++ ·) (List.append_nil _)
    · exact List.append_nil _
  | _ => exact List.append_nil _

theorem render_splitSigns (ps : List Piece) : render (splitSigns ps) = render ps := by
  induction ps with
  | nil => rfl
  | cons p ps ih => rw [splitSigns_cons, render_append, render_splitSign, render_cons, ih]

theorem startsWithMinus_splitSigns (ps : List Piece) :
    startsWithMinus (splitSigns ps) = startsWithMinus ps := by
  rw [Bool.eq_iff_iff, startsWithMinus_iff, startsWithMinus_iff, render_splitSigns]

/-- The text of a number without a sign begins with a digit. -/
theorem startsWithMinus_number {x : Double} (hx : x.Unsigned) (hnan : x.isNaN = false)
    (ps : List Piece) : startsWithMinus (number x :: ps) = false := by
  obtain ⟨d, hd, -⟩ := Numeral.exists_denotes_write hx hnan
  rw [startsWithMinus, text]
  generalize Numeral.write x = cs at hd
  obtain @⟨integer, fraction, exponent, e, hne, hinteger, -, -⟩ := hd
  cases integer with
  | nil => exact absurd rfl hne
  | cons c cs =>
    refine beq_false_of_ne ?_
    rintro rfl
    exact absurd (hinteger _ List.mem_cons_self) (by decide)

end Piece

namespace Layout

open Piece

/-! ## Lists and names -/

theorem splitSigns_comma (k : List Piece) : splitSigns (comma k) = comma (splitSigns k) := rfl

theorem splitSigns_spaced (s : Symbol) (k : List Piece) :
    splitSigns (spaced s k) = spaced s (splitSigns k) := rfl

theorem splitSigns_word (s : Symbol) (k : List Piece) :
    splitSigns (word s k) = word s (splitSigns k) := rfl

theorem splitSigns_closing (depth : Nat) (k : List Piece) :
    splitSigns (closing depth k) = closing depth (splitSigns k) := rfl

theorem splitSigns_moreNames (ns : List Name) (k : List Piece) :
    splitSigns (moreNames ns k) = moreNames ns (splitSigns k) := by
  induction ns with
  | nil => rfl
  | cons n ns ih => rw [moreNames, moreNames, splitSigns_comma, splitSigns_name, ih]

theorem splitSigns_names (ns : List Name) (k : List Piece) :
    splitSigns (names ns k) = names ns (splitSigns k) := by
  cases ns with
  | nil => rfl
  | cons n ns => rw [names, names, splitSigns_name, splitSigns_moreNames]

theorem splitSigns_parameters (ns : List Name) (hasVarargs : Bool) (k : List Piece) :
    splitSigns (parameters ns hasVarargs k) = parameters ns hasVarargs (splitSigns k) := by
  rw [parameters, parameters, splitSigns_names]
  split
  · split <;> rfl
  · rfl

theorem splitSigns_morePath (isMethod : Bool) (ns : List Name) (k : List Piece) :
    splitSigns (morePath isMethod ns k) = morePath isMethod ns (splitSigns k) := by
  induction ns with
  | nil => rfl
  | cons n ns ih => rw [morePath, morePath, splitSigns_symbol, splitSigns_name, ih]

theorem splitSigns_functionName (f : FunctionName) (k : List Piece) :
    splitSigns (functionName f k) = functionName f (splitSigns k) := by
  obtain ⟨path, isMethod, span⟩ := f
  cases path with
  | nil => rfl
  | cons n ns =>
    rw [functionName, functionName]
    dsimp only
    rw [splitSigns_name, splitSigns_morePath]

/-! ## Signs -/

theorem splitSigns_unaryOperator (op : UnaryOperator) (k : List Piece) :
    splitSigns (unaryOperator op k) = unaryOperator op (splitSigns k) := by
  cases op with
  | negate =>
    rw [unaryOperator, unaryOperator, splitSigns_symbol, startsWithMinus_splitSigns]
    split <;> rfl
  | _ => rfl

/-- A minus sign stands right before a number without a sign. -/
theorem unaryOperator_number {x : Double} (hx : x.Unsigned) (hnan : x.isNaN = false)
    (k : List Piece) : unaryOperator .negate (.number x :: k) = .symbol .minus :: .number x :: k := by
  rw [unaryOperator, startsWithMinus_number hx hnan, if_neg Bool.false_ne_true]

/-- Its sign is an operator before the number without it. -/
theorem splitSigns_of_negative {x : Double} (hnegative : x.negative = true)
    (hnan : x.isNaN = false) (k : List Piece) :
    splitSigns (.number x :: k) = unaryOperator .negate (.number x.abs :: splitSigns k) := by
  have habs : x.abs.Unsigned := rfl
  rw [unaryOperator_number habs hnan, splitSigns_cons, splitSign, hnegative, hnan]
  rfl

theorem splitSigns_inParensIf {e e' : Expression} {depth : Nat}
    (h : ∀ k, splitSigns (expression depth e k) = expression depth e' (splitSigns k))
    (needed : Bool) (k : List Piece) :
    splitSigns (expression depth (e.inParensIf needed) k) =
      expression depth (e'.inParensIf needed) (splitSigns k) := by
  cases needed with
  | false => exact h k
  | true => exact congrArg (Piece.symbol .leftParen :: ·) (h (.symbol .rightParen :: k))

theorem splitSigns_number (x : Double) (span : Span) (depth : Nat) (k : List Piece) :
    splitSigns (expression depth (Parens.expression (.number x span)) k) =
      expression depth (Parens.expression (Signs.number x span)) (splitSigns k) := by
  rw [Signs.number]
  split
  · next base hbase =>
    obtain ⟨_, _, ⟨rfl, rfl⟩, ⟨hnegative, hnan⟩, rfl⟩ := Signs.behindSign?_eq_some hbase
    exact splitSigns_of_negative hnegative hnan k
  · next hnone =>
    rw [Expression.behindSign?] at hnone
    split at hnone
    · cases hnone
    · next hx =>
      rw [Parens.expression, expression, expression, splitSigns_cons, splitSign, if_neg hx]
      rfl

/-! ## Nodes -/

mutual

/-- A tree in which signs are operators that bind no tighter than powers is laid out as the tree
is, but for signs being pieces of their own. -/
theorem splitSigns_block (b : Block) (depth : Nat) (k : List Piece) :
    splitSigns (block depth (Parens.block b) k) =
      block depth (Parens.block (Signs.block true b)) (splitSigns k) :=
  match b with
  | ⟨ss, _⟩ => by
    rw [Signs.block, Parens.block, Parens.block, block, block, splitSigns_statements ss]

theorem splitSigns_statements (ss : List Statement) (depth : Nat) (first : Bool) (k : List Piece) :
    splitSigns (statements depth first (Parens.statements ss) k) =
      statements depth first (Parens.statements (Signs.statements true ss)) (splitSigns k) :=
  match ss with
  | [] => rfl
  | s :: ss => by
    rw [Signs.statements, Parens.statements, Parens.statements, statements, statements,
      Parens.startsWithParen_statement, Parens.startsWithParen_statement,
      Signs.startsWithParen_statement, splitSigns_indent, ← splitSigns_statements ss,
      ← splitSigns_newline, ← splitSigns_statement s]
    split <;> rfl

theorem splitSigns_statement (s : Statement) (depth : Nat) (k : List Piece) :
    splitSigns (statement depth (Parens.statement s) k) =
      statement depth (Parens.statement (Signs.statement true s)) (splitSigns k) :=
  match s with
  | .assign vs es _ => by
    rw [Signs.statement, Parens.statement, Parens.statement, statement, statement,
      splitSigns_targets vs, splitSigns_spaced, splitSigns_expressions es]
  | .localAssign ns [] _ => congrArg (word .kwLocal) (splitSigns_names ns k)
  | .localAssign ns (e :: es) _ => by
    rw [Signs.statement, Signs.expressions, Parens.statement, Parens.statement, Parens.expressions,
      Parens.expressions, statement, statement, splitSigns_word, splitSigns_names,
      splitSigns_spaced, splitSigns_expression e, splitSigns_moreExpressions es]
  | .call c => by
    rw [Signs.statement, Parens.statement, Parens.statement, statement, statement, splitSigns_call c]
  | .doBlock b _ => by
    rw [Signs.statement, Parens.statement, Parens.statement, statement, statement, splitSigns_symbol,
      splitSigns_newline, splitSigns_block b, splitSigns_closing]
  | .whileLoop e b _ => by
    rw [Signs.statement, Parens.statement, Parens.statement, statement, statement, splitSigns_word,
      splitSigns_expression e, splitSigns_space, splitSigns_symbol, splitSigns_newline,
      splitSigns_block b, splitSigns_closing]
  | .repeatLoop b e _ => by
    rw [Signs.statement, Parens.statement, Parens.statement, statement, statement, splitSigns_symbol,
      splitSigns_newline, splitSigns_block b, splitSigns_indent, splitSigns_word,
      splitSigns_expression e]
  | .conditional cs none _ => by
    rw [Signs.statement, Signs.otherwise, Parens.statement, Parens.statement, statement, statement,
      splitSigns_conditional cs, splitSigns_symbol]
  | .conditional cs (some b) _ => by
    rw [Signs.statement, Signs.otherwise, Parens.statement, Parens.statement, statement, statement,
      splitSigns_conditional cs, splitSigns_symbol, splitSigns_newline, splitSigns_block b,
      splitSigns_closing]
  | .numericFor n start limit none b _ => by
    rw [Signs.statement, Signs.step, Parens.statement, Parens.statement, statement, statement,
      splitSigns_word, splitSigns_name, splitSigns_spaced, splitSigns_expression start,
      splitSigns_comma, splitSigns_expression limit, splitSigns_space, splitSigns_symbol,
      splitSigns_newline, splitSigns_block b, splitSigns_closing]
  | .numericFor n start limit (some e) b _ => by
    rw [Signs.statement, Signs.step, Parens.statement, Parens.statement, statement, statement,
      splitSigns_word, splitSigns_name, splitSigns_spaced, splitSigns_expression start,
      splitSigns_comma, splitSigns_expression limit, splitSigns_comma, splitSigns_expression e,
      splitSigns_space, splitSigns_symbol, splitSigns_newline, splitSigns_block b,
      splitSigns_closing]
  | .genericFor ns es b _ => by
    rw [Signs.statement, Parens.statement, Parens.statement, statement, statement, splitSigns_word,
      splitSigns_names, splitSigns_spaced, splitSigns_expressions es, splitSigns_space,
      splitSigns_symbol, splitSigns_newline, splitSigns_block b, splitSigns_closing]
  | .function f body _ => by
    rw [Signs.statement, Parens.statement, Parens.statement, statement, statement, splitSigns_word,
      splitSigns_functionName, splitSigns_functionBody body]
  | .localFunction n body _ => by
    rw [Signs.statement, Parens.statement, Parens.statement, statement, statement, splitSigns_word,
      splitSigns_word, splitSigns_name, splitSigns_functionBody body]
  | .label _ _ | .jump _ _ | .breakLoop _ => rfl
  | .returnValues [] _ => rfl
  | .returnValues (e :: es) _ => by
    rw [Signs.statement, Signs.expressions, Parens.statement, Parens.statement, Parens.expressions,
      Parens.expressions, statement, statement, splitSigns_symbol, splitSigns_space,
      splitSigns_expression e, splitSigns_moreExpressions es]

theorem splitSigns_conditional (cs : List Clause) (depth : Nat) (keyword : Symbol)
    (k : List Piece) :
    splitSigns (conditional depth keyword (Parens.clauses cs) k) =
      conditional depth keyword (Parens.clauses (Signs.clauses true cs)) (splitSigns k) :=
  match cs with
  | [] => rfl
  | ⟨e, b, _⟩ :: cs => by
    rw [Signs.clauses, Parens.clauses, Parens.clauses, conditional, conditional, splitSigns_word,
      splitSigns_expression e, splitSigns_space, splitSigns_symbol, splitSigns_newline,
      splitSigns_block b, splitSigns_indent, splitSigns_conditional cs]

theorem splitSigns_expression (e : Expression) (depth : Nat) (k : List Piece) :
    splitSigns (expression depth (Parens.expression e) k) =
      expression depth (Parens.expression (Signs.expression true e)) (splitSigns k) :=
  match e with
  | .nil _ | .boolean _ _ | .string _ _ | .varargs _ => rfl
  | .number x span => splitSigns_number x span depth k
  | .function body _ => by
    rw [Signs.expression, Parens.expression, Parens.expression, expression, expression,
      splitSigns_symbol, splitSigns_functionBody body]
  | .primary p => by
    rw [Signs.expression, Parens.expression, Parens.expression, expression, expression,
      splitSigns_primary p]
  | .table t => by
    rw [Signs.expression, Parens.expression, Parens.expression, expression, expression,
      splitSigns_table t]
  | .binary op left right span => by
    have hlimit := op.rightPower_lt_power
    have hright := splitSigns_inParensIf (splitSigns_expression right depth)
      (right.needsParensBehind op.rightPower) k
    rw [Signs.expression]
    split
    · next base hbase =>
      obtain ⟨-, rfl, hbase⟩ := Signs.takes?_eq_some hbase
      obtain ⟨x, _, rfl, ⟨hnegative, hnan⟩, rfl⟩ := Signs.behindSign?_eq_some hbase
      refine (splitSigns_of_negative hnegative hnan _).trans ?_
      rw [splitSigns_spaced, hright, ← Signs.needsParensBehind_expression true hlimit right]
      rfl
    · next hnone =>
      rw [Parens.expression, Parens.expression, expression, expression,
        Signs.needsParensBefore_expression hnone,
        Signs.needsParensBehind_expression true hlimit,
        splitSigns_inParensIf (splitSigns_expression left depth), splitSigns_spaced, hright]
  | .unary op operand _ => by
    rw [Signs.expression, Parens.expression, Parens.expression, expression, expression,
      Signs.needsParensBehind_expression true (by decide), splitSigns_unaryOperator,
      splitSigns_inParensIf (splitSigns_expression operand depth)]

theorem splitSigns_functionBody (f : FunctionBody) (depth : Nat) (k : List Piece) :
    splitSigns (functionBody depth (Parens.functionBody f) k) =
      functionBody depth (Parens.functionBody (Signs.functionBody true f)) (splitSigns k) :=
  match f with
  | ⟨_, _, b, _⟩ => by
    rw [Signs.functionBody, Parens.functionBody, Parens.functionBody, functionBody, functionBody,
      splitSigns_symbol, splitSigns_parameters, splitSigns_symbol, splitSigns_newline,
      splitSigns_block b, splitSigns_closing]

theorem splitSigns_moreExpressions (es : List Expression) (depth : Nat) (k : List Piece) :
    splitSigns (moreExpressions depth (Parens.expressions es) k) =
      moreExpressions depth (Parens.expressions (Signs.expressions true es)) (splitSigns k) :=
  match es with
  | [] => rfl
  | e :: es => by
    rw [Signs.expressions, Parens.expressions, Parens.expressions, moreExpressions, moreExpressions,
      splitSigns_comma, splitSigns_expression e, splitSigns_moreExpressions es]

theorem splitSigns_expressions (es : List Expression) (depth : Nat) (k : List Piece) :
    splitSigns (expressions depth (Parens.expressions es) k) =
      expressions depth (Parens.expressions (Signs.expressions true es)) (splitSigns k) :=
  match es with
  | [] => rfl
  | e :: es => by
    rw [Signs.expressions, Parens.expressions, Parens.expressions, expressions, expressions,
      splitSigns_expression e, splitSigns_moreExpressions es]

theorem splitSigns_primary (p : Primary) (depth : Nat) (k : List Piece) :
    splitSigns (primary depth (Parens.primary p) k) =
      primary depth (Parens.primary (Signs.primary true p)) (splitSigns k) :=
  match p with
  | .var v => by
    rw [Signs.primary, Parens.primary, Parens.primary, primary, primary, splitSigns_target v]
  | .call c => by
    rw [Signs.primary, Parens.primary, Parens.primary, primary, primary, splitSigns_call c]
  | .parenthesized e _ => by
    rw [Signs.primary, Parens.primary, Parens.primary, primary, primary, splitSigns_symbol,
      splitSigns_expression e, splitSigns_symbol]

theorem splitSigns_target (v : Variable) (depth : Nat) (k : List Piece) :
    splitSigns (target depth (Parens.target v) k) =
      target depth (Parens.target (Signs.target true v)) (splitSigns k) :=
  match v with
  | .name _ => rfl
  | .index base key _ => by
    rw [Signs.target, Parens.target, Parens.target, target, target, splitSigns_primary base,
      splitSigns_symbol, splitSigns_expression key, splitSigns_symbol]
  | .member base _ _ => by
    rw [Signs.target, Parens.target, Parens.target, target, target, splitSigns_primary base,
      splitSigns_symbol, splitSigns_name]

theorem splitSigns_moreTargets (vs : List Variable) (depth : Nat) (k : List Piece) :
    splitSigns (moreTargets depth (Parens.targets vs) k) =
      moreTargets depth (Parens.targets (Signs.targets true vs)) (splitSigns k) :=
  match vs with
  | [] => rfl
  | v :: vs => by
    rw [Signs.targets, Parens.targets, Parens.targets, moreTargets, moreTargets, splitSigns_comma,
      splitSigns_target v, splitSigns_moreTargets vs]

theorem splitSigns_targets (vs : List Variable) (depth : Nat) (k : List Piece) :
    splitSigns (targets depth (Parens.targets vs) k) =
      targets depth (Parens.targets (Signs.targets true vs)) (splitSigns k) :=
  match vs with
  | [] => rfl
  | v :: vs => by
    rw [Signs.targets, Parens.targets, Parens.targets, targets, targets, splitSigns_target v,
      splitSigns_moreTargets vs]

theorem splitSigns_call (c : Call) (depth : Nat) (k : List Piece) :
    splitSigns (call depth (Parens.call c) k) =
      call depth (Parens.call (Signs.call true c)) (splitSigns k) :=
  match c with
  | .function callee args _ => by
    rw [Signs.call, Parens.call, Parens.call, call, call, splitSigns_primary callee,
      splitSigns_arguments args]
  | .method receiver _ args _ => by
    rw [Signs.call, Parens.call, Parens.call, call, call, splitSigns_primary receiver,
      splitSigns_symbol, splitSigns_name, splitSigns_arguments args]

theorem splitSigns_arguments (a : Arguments) (depth : Nat) (k : List Piece) :
    splitSigns (arguments depth (Parens.arguments a) k) =
      arguments depth (Parens.arguments (Signs.arguments true a)) (splitSigns k) :=
  match a with
  | .list es _ => by
    rw [Signs.arguments, Parens.arguments, Parens.arguments, arguments, arguments,
      splitSigns_symbol, splitSigns_expressions es, splitSigns_symbol]
  | .table t => by
    rw [Signs.arguments, Parens.arguments, Parens.arguments, arguments, arguments,
      splitSigns_table t]
  | .string _ _ => rfl

theorem splitSigns_table (t : Table) (depth : Nat) (k : List Piece) :
    splitSigns (table depth (Parens.table t) k) =
      table depth (Parens.table (Signs.table true t)) (splitSigns k) :=
  match t with
  | ⟨[], _⟩ => rfl
  | ⟨f :: fs, _⟩ => by
    rw [Signs.table, Signs.fields, Parens.table, Parens.fields, Parens.table, Parens.fields,
      table, table, splitSigns_symbol, splitSigns_space, splitSigns_field f, splitSigns_moreFields fs,
      splitSigns_space, splitSigns_symbol]

theorem splitSigns_field (f : Field) (depth : Nat) (k : List Piece) :
    splitSigns (field depth (Parens.field f) k) =
      field depth (Parens.field (Signs.field true f)) (splitSigns k) :=
  match f with
  | .keyed key value _ => by
    rw [Signs.field, Parens.field, Parens.field, field, field, splitSigns_symbol,
      splitSigns_expression key, splitSigns_symbol, splitSigns_spaced, splitSigns_expression value]
  | .named _ value _ => by
    rw [Signs.field, Parens.field, Parens.field, field, field, splitSigns_name, splitSigns_spaced,
      splitSigns_expression value]
  | .positional value => by
    rw [Signs.field, Parens.field, Parens.field, field, field, splitSigns_expression value]

theorem splitSigns_moreFields (fs : List Field) (depth : Nat) (k : List Piece) :
    splitSigns (moreFields depth (Parens.fields fs) k) =
      moreFields depth (Parens.fields (Signs.fields true fs)) (splitSigns k) :=
  match fs with
  | [] => rfl
  | f :: fs => by
    rw [Signs.fields, Parens.fields, Parens.fields, moreFields, moreFields, splitSigns_comma,
      splitSigns_field f, splitSigns_moreFields fs]

end

end Layout

/-! ## Texts -/

/-- A sign is written as the operator that it is read as. -/
theorem format_signs (t : Block) : format (Signs.block true t) = format t := by
  rw [format, format, ← Piece.render_splitSigns (Layout.block 0 (Parens.block t) []),
    Layout.splitSigns_block, Piece.splitSigns_nil]

/-- The text of a writable tree is parsed to the tree in which signs are operators that bind no
tighter than powers, with the parentheses that it needs. -/
theorem parse_format_writable {t : Block} (h : Everywhere.block writable t)
    {options : ParseOptions}
    (hdepth : Need.block (Parens.block (Signs.block true t)) ≤ options.maxDepth) :
    ∃ t', parse (format t) options = .ok t' ∧ format t' = format t ∧
      Wraps.block (Shape.block (Signs.block true t)) (Shape.block t') := by
  have hformed := Parens.everywhere_block _ (Signs.everywhere_block true t h)
  have hparens := Parens.block_eq_self _ (Everywhere.and_block.1 hformed).2
  have hformat : format (Parens.block (Signs.block true t)) = format t := by
    rw [← format_signs t, format, hparens, format]
  obtain ⟨t', hparse, hshape⟩ := parse_format hformed hdepth
  rw [hformat] at hparse
  refine ⟨t', hparse, (format_eq_of_shape_eq hshape).trans hformat, ?_⟩
  rw [hshape, Parens.shape_block]
  exact Wraps.block_parens _

/-- The text of a tree that is well formed but for the signs of numbers is parsed to that tree with
some operands of operators in parentheses, up to spans, where the sign of a number is an operator.
What the operator negates is the number, or the power that the number is the base of: it is the
number everywhere if and only if no base of a power has a sign. -/
theorem parse_format_signs {t : Block} (h : Everywhere.block writable t) :
    ∃ depth, ∀ options : ParseOptions, depth ≤ options.maxDepth →
      ∃ t', parse (format t) options = .ok t' ∧ format t' = format t ∧
        Wraps.block (Shape.block (Signs.block true t)) (Shape.block t') ∧
        (Wraps.block (Shape.block (Signs.block false t)) (Shape.block t') ↔
          Everywhere.block plainBases t) := by
  refine ⟨Need.block (Parens.block (Signs.block true t)), fun options hdepth => ?_⟩
  obtain ⟨t', hparse, hformat, hwraps⟩ := parse_format_writable h hdepth
  refine ⟨t', hparse, hformat, hwraps, ?_, ?_⟩
  · intro hnumbers
    exact Signs.block_plain t hnumbers hwraps
  · intro hplain
    rw [← Signs.block_of_plainBases t hplain]
    exact hwraps

/-- A tree that returns a power of a number. -/
def powerOfNumber (base exponent : Double) : Block :=
  ⟨[.returnValues [.binary .power (.number base default) (.number exponent default) default]
    default], default⟩

theorem writable_powerOfNumber {base exponent : Double} (hbase : base.isNaN = false)
    (hexponent : exponent.isNaN = false) :
    Everywhere.block writable (powerOfNumber base exponent) :=
  ⟨fun _ hs => absurd hs List.not_mem_nil,
    ⟨trivial, ⟨trivial, ⟨hbase, trivial⟩, hexponent, trivial⟩, trivial⟩, trivial⟩

/-- The number 2. -/
def two : Double := Double.ofBits 0x4000000000000000

theorem isNaN_two : two.isNaN = false := by decide

theorem isNaN_neg_two : two.neg.isNaN = false := isNaN_two

theorem parse_format_signs_exponent :
    Everywhere.block writable (powerOfNumber two two.neg) ∧
      ∃ depth, ∀ options : ParseOptions, depth ≤ options.maxDepth →
        ∃ t', parse (format (powerOfNumber two two.neg)) options = .ok t' ∧
          format t' = format (powerOfNumber two two.neg) ∧
          Wraps.block (Shape.block (Signs.block true (powerOfNumber two two.neg)))
            (Shape.block t') ∧
          (Wraps.block (Shape.block (Signs.block false (powerOfNumber two two.neg)))
            (Shape.block t') ↔ Everywhere.block plainBases (powerOfNumber two two.neg)) := by
  have hwritable := writable_powerOfNumber isNaN_two isNaN_neg_two
  exact ⟨hwritable, parse_format_signs hwritable⟩

/-- The tree of a power of -2 does not come back from its text: the power is negated there. -/
theorem not_parse_format_signs_base :
    Everywhere.block writable (powerOfNumber two.neg two) ∧
      ¬ ∃ depth, ∀ options : ParseOptions, depth ≤ options.maxDepth →
        ∃ t', parse (format (powerOfNumber two.neg two)) options = .ok t' ∧
          Wraps.block (Shape.block (Signs.block false (powerOfNumber two.neg two)))
            (Shape.block t') := by
  have hwritable := writable_powerOfNumber isNaN_neg_two isNaN_two
  refine ⟨hwritable, ?_⟩
  rintro ⟨depth, hparsed⟩
  let need := Need.block (Parens.block (Signs.block true (powerOfNumber two.neg two)))
  let options : ParseOptions := { maxDepth := max depth need }
  obtain ⟨t', hparse, hnumbers⟩ := hparsed options (Nat.le_max_left _ _)
  obtain ⟨t'', hparse', -, hpowers⟩ :=
    @parse_format_writable _ hwritable options (Nat.le_max_right _ _)
  rw [hparse] at hparse'
  cases hparse'
  obtain ⟨-, ⟨-, ⟨hplain, -⟩, -⟩, -⟩ := Signs.block_plain _ hnumbers hpowers
  have hsome : (Expression.number two.neg default).behindSign? = some (.number two default) := rfl
  exact absurd (hsome.symm.trans hplain) (Option.some_ne_none _)

end LuaSource
