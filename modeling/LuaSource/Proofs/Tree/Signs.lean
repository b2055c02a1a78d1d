-- SUMMARY: Trees in which the sign of a number is an operator.
import LuaSource.Proofs.Tree.Parens
import LuaSource.Proofs.Tree.Wraps

/-!
# Signs as operators

A numeral has no sign, so that the minus sign of a number can only be read as an operator. There are
two ways to put it before the number: always right there, or before the power of which the number is
the base, since a power binds tighter than a sign. The two give the same tree if no base has a sign.
-/

namespace LuaSource

/-! ## Signs -/

namespace Expression

/-- The number behind the sign of an expression that is a number with a sign. The sign of a
quotient without a value is not written. -/
def behindSign? : Expression → Option Expression
  | .number x span => if x.negative && !x.isNaN then some (.number x.abs span) else none
  | _ => none

end Expression

theorem BinaryOperator.rightPower_lt_power (op : BinaryOperator) :
    op.rightPower < power.leftPower := by
  cases op <;> decide

/-- Well formed but for the signs of numbers. -/
def writable : Condition where
  statements := lastOnly
  statement := Statement.IsComplete
  expression := Expression.IsNumber
  name := fun n => IsName n.text

namespace Signs

/-- A number, with its sign as an operator if it has one. -/
def number (x : Double) (span : Span) : Expression :=
  match (Expression.number x span).behindSign? with
  | some e => .unary .negate e span
  | none => .number x span

/-- The operand that an operator takes away from its sign: the base of a power, if powers bind
tighter than signs. -/
def takes? (tight : Bool) (op : BinaryOperator) (left : Expression) : Option Expression :=
  if tight ∧ op = .power then left.behindSign? else none

variable (tight : Bool)

mutual

def block : Block → Block
  | ⟨ss, span⟩ => ⟨statements ss, span⟩

def statements : List Statement → List Statement
  | [] => []
  | s :: ss => statement s :: statements ss

def statement : Statement → Statement
  | .assign vs es span => .assign (targets vs) (expressions es) span
  | .localAssign ns es span => .localAssign ns (expressions es) span
  | .call c => .call (call c)
  | .doBlock b span => .doBlock (block b) span
  | .whileLoop e b span => .whileLoop (expression e) (block b) span
  | .repeatLoop b e span => .repeatLoop (block b) (expression e) span
  | .conditional cs b span => .conditional (clauses cs) (otherwise b) span
  | .numericFor n start limit e b span =>
    .numericFor n (expression start) (expression limit) (step e) (block b) span
  | .genericFor ns es b span => .genericFor ns (expressions es) (block b) span
  | .function f body span => .function f (functionBody body) span
  | .localFunction n body span => .localFunction n (functionBody body) span
  | .label n span => .label n span
  | .jump n span => .jump n span
  | .returnValues es span => .returnValues (expressions es) span
  | .breakLoop span => .breakLoop span

def step : Option Expression → Option Expression
  | none => none
  | some e => some (expression e)

def otherwise : Option Block → Option Block
  | none => none
  | some b => some (block b)

def clauses : List Clause → List Clause
  | [] => []
  | ⟨e, b, span⟩ :: cs => ⟨expression e, block b, span⟩ :: clauses cs

def functionBody : FunctionBody → FunctionBody
  | ⟨ns, hasVarargs, b, span⟩ => ⟨ns, hasVarargs, block b, span⟩

/-- The tree of an expression in which the signs of numbers are operators. -/
def expression : Expression → Expression
  | .nil span => .nil span
  | .boolean value span => .boolean value span
  | .number value span => number value span
  | .string value span => .string value span
  | .varargs span => .varargs span
  | .function body span => .function (functionBody body) span
  | .primary p => .primary (primary p)
  | .table t => .table (table t)
  | .binary op left right span =>
    match takes? tight op left with
    | some base => .unary .negate (.binary op base (expression right) span) span
    | none => .binary op (expression left) (expression right) span
  | .unary op operand span => .unary op (expression operand) span

def expressions : List Expression → List Expression
  | [] => []
  | e :: es => expression e :: expressions es

def primary : Primary → Primary
  | .var v => .var (target v)
  | .call c => .call (call c)
  | .parenthesized e span => .parenthesized (expression e) span

def target : Variable → Variable
  | .name n => .name n
  | .index base key span => .index (primary base) (expression key) span
  | .member base n span => .member (primary base) n span

def targets : List Variable → List Variable
  | [] => []
  | v :: vs => target v :: targets vs

def call : Call → Call
  | .function callee args span => .function (primary callee) (arguments args) span
  | .method receiver n args span => .method (primary receiver) n (arguments args) span

def arguments : Arguments → Arguments
  | .list es span => .list (expressions es) span
  | .table t => .table (table t)
  | .string value span => .string value span

def table : Table → Table
  | ⟨fs, span⟩ => ⟨fields fs, span⟩

def fields : List Field → List Field
  | [] => []
  | f :: fs => field f :: fields fs

def field : Field → Field
  | .keyed key value span => .keyed (expression key) (expression value) span
  | .named n value span => .named n (expression value) span
  | .positional value => .positional (expression value)

end

/-! ## Well-formed trees -/

variable {tight}

theorem behindSign?_eq_some {left base : Expression} (h : left.behindSign? = some base) :
    ∃ x span, left = .number x span ∧ (x.negative = true ∧ x.isNaN = false) ∧
      base = .number x.abs span := by
  cases left with
  | number x span =>
    rw [Expression.behindSign?] at h
    split at h
    · next hx =>
      cases h
      simp only [Bool.and_eq_true, Bool.not_eq_true'] at hx
      exact ⟨x, span, rfl, hx, rfl⟩
    · cases h
  | _ => cases h

theorem takes?_eq_some {op : BinaryOperator} {left base : Expression}
    (h : takes? tight op left = some base) :
    tight = true ∧ op = .power ∧ left.behindSign? = some base := by
  rw [takes?] at h
  split at h
  · next ht => exact ⟨ht.1, ht.2, h⟩
  · cases h

theorem statements_eq_map (ss : List Statement) : statements tight ss = ss.map (statement tight) := by
  induction ss with
  | nil => rfl
  | cons s ss ih => rw [statements, List.map_cons, ih]

theorem isLast_statement (s : Statement) : (statement tight s).isLast = s.isLast := by
  cases s <;> rfl

theorem targets_ne_nil {vs : List Variable} (h : vs ≠ []) : targets tight vs ≠ [] := by
  cases vs with
  | nil => exact absurd rfl h
  | cons v vs => exact List.cons_ne_nil _ _

theorem expressions_ne_nil {es : List Expression} (h : es ≠ []) : expressions tight es ≠ [] := by
  cases es with
  | nil => exact absurd rfl h
  | cons e es => exact List.cons_ne_nil _ _

theorem clauses_ne_nil {cs : List Clause} (h : cs ≠ []) : clauses tight cs ≠ [] := by
  match cs with
  | [] => exact absurd rfl h
  | ⟨_, _, _⟩ :: _ => exact List.cons_ne_nil _ _

theorem isComplete_statement (s : Statement) (h : s.IsComplete) :
    (statement tight s).IsComplete := by
  cases s with
  | assign vs es span => exact ⟨targets_ne_nil h.1, expressions_ne_nil h.2⟩
  | conditional cs b span => exact clauses_ne_nil h
  | genericFor ns es b span => exact ⟨h.1, expressions_ne_nil h.2⟩
  | _ => exact h

/-- Behind its sign, a number is well formed. -/
theorem wellFormed_of_behindSign? {left base : Expression} (h : left.behindSign? = some base)
    (hleft : Everywhere.expression writable left) : Everywhere.expression wellFormed base := by
  obtain ⟨x, span, rfl, ⟨-, hnan⟩, rfl⟩ := behindSign?_eq_some h
  exact ⟨⟨rfl, hnan⟩, trivial⟩

theorem wellFormed_number (x : Double) (span : Span)
    (h : Everywhere.expression writable (.number x span)) :
    Everywhere.expression wellFormed (number x span) := by
  rw [number]
  split
  · next base hbase => exact ⟨⟨trivial, trivial⟩, wellFormed_of_behindSign? hbase h⟩
  · next hnone =>
    refine ⟨⟨?_, h.1⟩, trivial⟩
    rw [Expression.behindSign?] at hnone
    split at hnone
    · cases hnone
    · next hx =>
      have hnan : x.isNaN = false := h.1
      rw [hnan, Bool.not_false, Bool.and_true] at hx
      exact eq_false_of_ne_true hx

variable (tight)

mutual

/-- With signs as operators, a writable tree is well formed. -/
theorem everywhere_block (b : Block) (h : Everywhere.block writable b) :
    Everywhere.block wellFormed (block tight b) :=
  match b with
  | ⟨ss, _⟩ => by
    have hlast : lastOnly (statements tight ss) := by
      rw [lastOnly, statements_eq_map, ← List.map_dropLast, List.forall_mem_map]
      exact fun s hs => (isLast_statement s).trans (h.1 s hs)
    exact ⟨hlast, everywhere_statements ss h.2⟩

theorem everywhere_statements (ss : List Statement) (h : Everywhere.statements writable ss) :
    Everywhere.statements wellFormed (statements tight ss) :=
  match ss with
  | [] => trivial
  | s :: ss => ⟨everywhere_statement s h.1, everywhere_statements ss h.2⟩

theorem everywhere_statement (s : Statement) (h : Everywhere.statement writable s) :
    Everywhere.statement wellFormed (statement tight s) :=
  match s with
  | .assign vs es span =>
    ⟨isComplete_statement (.assign vs es span) h.1, everywhere_targets vs h.2.1,
      everywhere_expressions es h.2.2⟩
  | .localAssign _ es _ => ⟨h.1, h.2.1, everywhere_expressions es h.2.2⟩
  | .call c => ⟨trivial, everywhere_call c h.2⟩
  | .doBlock b _ => ⟨trivial, everywhere_block b h.2⟩
  | .whileLoop e b _ | .repeatLoop b e _ =>
    ⟨trivial, everywhere_expression e h.2.1, everywhere_block b h.2.2⟩
  | .conditional cs none span =>
    ⟨isComplete_statement (.conditional cs none span) h.1, everywhere_clauses cs h.2.1, trivial⟩
  | .conditional cs (some b) span =>
    ⟨isComplete_statement (.conditional cs (some b) span) h.1, everywhere_clauses cs h.2.1,
      everywhere_block b h.2.2⟩
  | .numericFor _ start limit none b _ =>
    ⟨trivial, h.2.1, everywhere_expression start h.2.2.1, everywhere_expression limit h.2.2.2.1,
      trivial, everywhere_block b h.2.2.2.2.2⟩
  | .numericFor _ start limit (some e) b _ =>
    ⟨trivial, h.2.1, everywhere_expression start h.2.2.1, everywhere_expression limit h.2.2.2.1,
      everywhere_expression e h.2.2.2.2.1, everywhere_block b h.2.2.2.2.2⟩
  | .genericFor ns es b span =>
    ⟨isComplete_statement (.genericFor ns es b span) h.1, h.2.1, everywhere_expressions es h.2.2.1,
      everywhere_block b h.2.2.2⟩
  | .function _ body _ => ⟨h.1, h.2.1, everywhere_functionBody body h.2.2⟩
  | .localFunction _ body _ => ⟨trivial, h.2.1, everywhere_functionBody body h.2.2⟩
  | .label _ _ | .jump _ _ => ⟨trivial, h.2⟩
  | .returnValues es _ => ⟨trivial, everywhere_expressions es h.2⟩
  | .breakLoop _ => ⟨trivial, trivial⟩

theorem everywhere_clauses (cs : List Clause) (h : Everywhere.clauses writable cs) :
    Everywhere.clauses wellFormed (clauses tight cs) :=
  match cs with
  | [] => trivial
  | ⟨e, b, _⟩ :: cs =>
    ⟨⟨everywhere_expression e h.1.1, everywhere_block b h.1.2⟩, everywhere_clauses cs h.2⟩

theorem everywhere_functionBody (f : FunctionBody) (h : Everywhere.functionBody writable f) :
    Everywhere.functionBody wellFormed (functionBody tight f) :=
  match f with
  | ⟨_, _, b, _⟩ => ⟨h.1, everywhere_block b h.2⟩

theorem everywhere_expression (e : Expression) (h : Everywhere.expression writable e) :
    Everywhere.expression wellFormed (expression tight e) :=
  match e with
  | .nil _ | .boolean _ _ | .string _ _ | .varargs _ => ⟨⟨trivial, trivial⟩, trivial⟩
  | .number x span => wellFormed_number x span h
  | .function body _ => ⟨⟨trivial, trivial⟩, everywhere_functionBody body h.2⟩
  | .primary p => ⟨⟨trivial, trivial⟩, everywhere_primary p h.2⟩
  | .table t => ⟨⟨trivial, trivial⟩, everywhere_table t h.2⟩
  | .binary op left right span => by
    have hright := everywhere_expression right h.2.2
    rw [expression]
    split
    · next base hbase =>
      obtain ⟨-, -, hbase⟩ := takes?_eq_some hbase
      exact ⟨⟨trivial, trivial⟩, ⟨trivial, trivial⟩, wellFormed_of_behindSign? hbase h.2.1, hright⟩
    · exact ⟨⟨trivial, trivial⟩, everywhere_expression left h.2.1, hright⟩
  | .unary _ operand _ => ⟨⟨trivial, trivial⟩, everywhere_expression operand h.2⟩

theorem everywhere_expressions (es : List Expression) (h : Everywhere.expressions writable es) :
    Everywhere.expressions wellFormed (expressions tight es) :=
  match es with
  | [] => trivial
  | e :: es => ⟨everywhere_expression e h.1, everywhere_expressions es h.2⟩

theorem everywhere_primary (p : Primary) (h : Everywhere.primary writable p) :
    Everywhere.primary wellFormed (primary tight p) :=
  match p with
  | .var v => everywhere_target v h
  | .call c => everywhere_call c h
  | .parenthesized e _ => everywhere_expression e h

theorem everywhere_target (v : Variable) (h : Everywhere.target writable v) :
    Everywhere.target wellFormed (target tight v) :=
  match v with
  | .name _ => h
  | .index base key _ => ⟨everywhere_primary base h.1, everywhere_expression key h.2⟩
  | .member base _ _ => ⟨everywhere_primary base h.1, h.2⟩

theorem everywhere_targets (vs : List Variable) (h : Everywhere.targets writable vs) :
    Everywhere.targets wellFormed (targets tight vs) :=
  match vs with
  | [] => trivial
  | v :: vs => ⟨everywhere_target v h.1, everywhere_targets vs h.2⟩

theorem everywhere_call (c : Call) (h : Everywhere.call writable c) :
    Everywhere.call wellFormed (call tight c) :=
  match c with
  | .function callee args _ => ⟨everywhere_primary callee h.1, everywhere_arguments args h.2⟩
  | .method receiver _ args _ =>
    ⟨everywhere_primary receiver h.1, h.2.1, everywhere_arguments args h.2.2⟩

theorem everywhere_arguments (a : Arguments) (h : Everywhere.arguments writable a) :
    Everywhere.arguments wellFormed (arguments tight a) :=
  match a with
  | .list es _ => everywhere_expressions es h
  | .table t => everywhere_table t h
  | .string _ _ => trivial

theorem everywhere_table (t : Table) (h : Everywhere.table writable t) :
    Everywhere.table wellFormed (table tight t) :=
  match t with
  | ⟨fs, _⟩ => everywhere_fields fs h

theorem everywhere_fields (fs : List Field) (h : Everywhere.fields writable fs) :
    Everywhere.fields wellFormed (fields tight fs) :=
  match fs with
  | [] => trivial
  | f :: fs => ⟨everywhere_field f h.1, everywhere_fields fs h.2⟩

theorem everywhere_field (f : Field) (h : Everywhere.field writable f) :
    Everywhere.field wellFormed (field tight f) :=
  match f with
  | .keyed key value _ => ⟨everywhere_expression key h.1, everywhere_expression value h.2⟩
  | .named _ value _ => ⟨h.1, everywhere_expression value h.2⟩
  | .positional value => everywhere_expression value h

end

/-! ## Beginnings -/

mutual

theorem startsWithParen_primary (p : Primary) :
    (primary tight p).startsWithParen = p.startsWithParen :=
  match p with
  | .var v => startsWithParen_target v
  | .call c => startsWithParen_call c
  | .parenthesized _ _ => rfl

theorem startsWithParen_target (v : Variable) :
    (target tight v).startsWithParen = v.startsWithParen :=
  match v with
  | .name _ => rfl
  | .index base _ _ | .member base _ _ => startsWithParen_primary base

theorem startsWithParen_call (c : Call) : (call tight c).startsWithParen = c.startsWithParen :=
  match c with
  | .function callee _ _ => startsWithParen_primary callee
  | .method receiver _ _ _ => startsWithParen_primary receiver

end

theorem startsWithParen_statement (s : Statement) :
    (statement tight s).startsWithParen = s.startsWithParen := by
  cases s with
  | assign vs es span =>
    cases vs with
    | nil => rfl
    | cons v vs => exact startsWithParen_target tight v
  | call c => exact startsWithParen_call tight c
  | _ => rfl

/-! ## Operands -/

/-- The sign of a base is not put into parentheses, since no operator offers it a limit that a
power would not go beyond. -/
theorem needsParensBehind_expression {limit : Nat} (hlimit : limit < BinaryOperator.power.leftPower)
    (e : Expression) :
    (expression tight e).needsParensBehind limit = e.needsParensBehind limit := by
  cases e with
  | number x span =>
    rw [expression, number]
    split <;> rfl
  | binary op left right span =>
    rw [expression]
    split
    · next base hbase =>
      obtain ⟨-, rfl, -⟩ := takes?_eq_some hbase
      exact (decide_eq_false (Nat.not_le.2 hlimit)).symm
    · rfl
  | _ => rfl

/-- Only before a power would a sign need parentheses, and there it is taken away. -/
theorem needsParensBefore_expression {op : BinaryOperator} {left : Expression}
    (h : takes? true op left = none) :
    (expression true left).needsParensBefore op = left.needsParensBefore op := by
  cases left with
  | number x span =>
    rw [expression, number]
    split
    · next base hbase =>
      rw [takes?] at h
      split at h
      · rw [h] at hbase
        cases hbase
      · next hop =>
        cases op with
        | power => exact absurd ⟨rfl, rfl⟩ hop
        | _ => rfl
    · rfl
  | binary inner base right span =>
    rw [expression]
    split
    · next hbase =>
      obtain ⟨-, rfl, -⟩ := takes?_eq_some hbase
      cases op <;> rfl
    · rfl
  | _ => rfl

end Signs

end LuaSource
