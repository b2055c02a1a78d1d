-- SUMMARY: The nodes of a tree in the order of the source.
import LuaSource.Proofs.Tree.Everywhere

/-!
# Nodes

A tree has a node for each of its parts. A node comes before its own parts, and parts come in
the order of the source. A condition holds everywhere in a tree if and only if it holds of all
nodes, so that conditions can be weakened and put together.
-/

namespace LuaSource

inductive Node
  | block (b : Block)
  | statement (s : Statement)
  | expression (e : Expression)
  | primary (p : Primary)
  | target (v : Variable)
  | call (c : Call)
  | arguments (a : Arguments)
  | field (f : Field)
  | functionBody (f : FunctionBody)
  | name (n : Name)

namespace Nodes

def names (ns : List Name) : List Node := ns.map .name

mutual

def block : Block → List Node
  | ⟨ss, span⟩ => .block ⟨ss, span⟩ :: statements ss

def statements : List Statement → List Node
  | [] => []
  | s :: ss => statement s ++ statements ss

def statement : Statement → List Node
  | .assign vs es span => .statement (.assign vs es span) :: (targets vs ++ expressions es)
  | .localAssign ns es span => .statement (.localAssign ns es span) :: (names ns ++ expressions es)
  | .call c => .statement (.call c) :: call c
  | .doBlock b span => .statement (.doBlock b span) :: block b
  | .whileLoop e b span => .statement (.whileLoop e b span) :: (expression e ++ block b)
  | .repeatLoop b e span => .statement (.repeatLoop b e span) :: (block b ++ expression e)
  | .conditional cs b span => .statement (.conditional cs b span) :: (clauses cs ++ otherwise b)
  | .numericFor n start limit e b span =>
    .statement (.numericFor n start limit e b span) :: .name n ::
      (expression start ++ (expression limit ++ (step e ++ block b)))
  | .genericFor ns es b span =>
    .statement (.genericFor ns es b span) :: (names ns ++ (expressions es ++ block b))
  | .function f body span =>
    .statement (.function f body span) :: (names f.path ++ functionBody body)
  | .localFunction n body span =>
    .statement (.localFunction n body span) :: .name n :: functionBody body
  | .label n span => [.statement (.label n span), .name n]
  | .jump n span => [.statement (.jump n span), .name n]
  | .returnValues es span => .statement (.returnValues es span) :: expressions es
  | .breakLoop span => [.statement (.breakLoop span)]

def step : Option Expression → List Node
  | none => []
  | some e => expression e

def otherwise : Option Block → List Node
  | none => []
  | some b => block b

def clauses : List Clause → List Node
  | [] => []
  | c :: cs => clause c ++ clauses cs

def clause : Clause → List Node
  | ⟨e, b, _⟩ => expression e ++ block b

def functionBody : FunctionBody → List Node
  | ⟨ns, hasVarargs, b, span⟩ => .functionBody ⟨ns, hasVarargs, b, span⟩ :: (names ns ++ block b)

def expression : Expression → List Node
  | .nil span => [.expression (.nil span)]
  | .boolean value span => [.expression (.boolean value span)]
  | .number value span => [.expression (.number value span)]
  | .string value span => [.expression (.string value span)]
  | .varargs span => [.expression (.varargs span)]
  | .function body span => .expression (.function body span) :: functionBody body
  | .primary p => .expression (.primary p) :: primary p
  | .table t => .expression (.table t) :: table t
  | .binary op left right span =>
    .expression (.binary op left right span) :: (expression left ++ expression right)
  | .unary op operand span => .expression (.unary op operand span) :: expression operand

def expressions : List Expression → List Node
  | [] => []
  | e :: es => expression e ++ expressions es

def primary : Primary → List Node
  | .var v => .primary (.var v) :: target v
  | .call c => .primary (.call c) :: call c
  | .parenthesized e span => .primary (.parenthesized e span) :: expression e

def target : Variable → List Node
  | .name n => [.target (.name n), .name n]
  | .index base key span => .target (.index base key span) :: (primary base ++ expression key)
  | .member base n span => .target (.member base n span) :: (primary base ++ [.name n])

def targets : List Variable → List Node
  | [] => []
  | v :: vs => target v ++ targets vs

def call : Call → List Node
  | .function callee args span =>
    .call (.function callee args span) :: (primary callee ++ arguments args)
  | .method receiver n args span =>
    .call (.method receiver n args span) :: (primary receiver ++ .name n :: arguments args)

def arguments : Arguments → List Node
  | .list es span => .arguments (.list es span) :: expressions es
  | .table t => .arguments (.table t) :: table t
  | .string value span => [.arguments (.string value span)]

/-- A table is no node of its own, only its fields are. -/
def table : Table → List Node
  | ⟨fs, _⟩ => fields fs

def fields : List Field → List Node
  | [] => []
  | f :: fs => field f ++ fields fs

def field : Field → List Node
  | .keyed key value span => .field (.keyed key value span) :: (expression key ++ expression value)
  | .named n value span => .field (.named n value span) :: .name n :: expression value
  | .positional value => .field (.positional value) :: expression value

end

end Nodes

/-! ## Conditions -/

/-- What a condition asks of a single node. -/
def Condition.Holds (c : Condition) : Node → Prop
  | .block b => c.statements b.statements
  | .statement s => c.statement s
  | .expression e => c.expression e
  | .name n => c.name n
  | _ => True

namespace Nodes

open List

variable {c : Condition}

theorem holds_names {ns : List Name} :
    (∀ n ∈ names ns, c.Holds n) ↔ Everywhere.names c ns := by
  rw [names, forall_mem_map]
  rfl

mutual

theorem holds_block (b : Block) : (∀ n ∈ block b, c.Holds n) ↔ Everywhere.block c b :=
  match b with
  | ⟨ss, _⟩ => by
    rw [block, forall_mem_cons, holds_statements ss]
    rfl

theorem holds_statements (ss : List Statement) :
    (∀ n ∈ statements ss, c.Holds n) ↔ Everywhere.statements c ss :=
  match ss with
  | [] => iff_of_true (forall_mem_nil _) trivial
  | s :: ss => by
    rw [statements, forall_mem_append, holds_statement s, holds_statements ss]
    rfl

theorem holds_statement (s : Statement) :
    (∀ n ∈ statement s, c.Holds n) ↔ Everywhere.statement c s :=
  match s with
  | .assign vs es _ => by
    rw [statement, forall_mem_cons, forall_mem_append, holds_targets vs, holds_expressions es]
    rfl
  | .localAssign ns es _ => by
    rw [statement, forall_mem_cons, forall_mem_append, holds_names, holds_expressions es]
    rfl
  | .call f => by
    rw [statement, forall_mem_cons, holds_call f]
    rfl
  | .doBlock b _ => by
    rw [statement, forall_mem_cons, holds_block b]
    rfl
  | .whileLoop e b _ => by
    rw [statement, forall_mem_cons, forall_mem_append, holds_expression e, holds_block b]
    rfl
  | .repeatLoop b e _ => by
    rw [statement, forall_mem_cons, forall_mem_append, holds_block b, holds_expression e,
      and_comm (a := Everywhere.block c b)]
    rfl
  | .conditional cs b _ => by
    rw [statement, forall_mem_cons, forall_mem_append, holds_clauses cs, holds_otherwise b]
    rfl
  | .numericFor n start limit e b _ => by
    rw [statement, forall_mem_cons, forall_mem_cons, forall_mem_append, forall_mem_append,
      forall_mem_append, holds_expression start, holds_expression limit, holds_step e,
      holds_block b]
    rfl
  | .genericFor ns es b _ => by
    rw [statement, forall_mem_cons, forall_mem_append, forall_mem_append, holds_names,
      holds_expressions es, holds_block b]
    rfl
  | .function f body _ => by
    rw [statement, forall_mem_cons, forall_mem_append, holds_names, holds_functionBody body]
    rfl
  | .localFunction n body _ => by
    rw [statement, forall_mem_cons, forall_mem_cons, holds_functionBody body]
    rfl
  | .label n _ | .jump n _ => by
    rw [statement, forall_mem_cons, forall_mem_singleton]
    rfl
  | .returnValues es _ => by
    rw [statement, forall_mem_cons, holds_expressions es]
    rfl
  | .breakLoop _ => by
    rw [statement, forall_mem_singleton]
    exact (iff_of_eq (and_true _)).symm

theorem holds_step (e : Option Expression) :
    (∀ n ∈ step e, c.Holds n) ↔ Everywhere.step c e :=
  match e with
  | none => iff_of_true (forall_mem_nil _) trivial
  | some e => by
    rw [step, holds_expression e]
    rfl

theorem holds_otherwise (b : Option Block) :
    (∀ n ∈ otherwise b, c.Holds n) ↔ Everywhere.otherwise c b :=
  match b with
  | none => iff_of_true (forall_mem_nil _) trivial
  | some b => by
    rw [otherwise, holds_block b]
    rfl

theorem holds_clauses (cs : List Clause) :
    (∀ n ∈ clauses cs, c.Holds n) ↔ Everywhere.clauses c cs :=
  match cs with
  | [] => iff_of_true (forall_mem_nil _) trivial
  | d :: ds => by
    rw [clauses, forall_mem_append, holds_clause d, holds_clauses ds]
    rfl

theorem holds_clause (d : Clause) : (∀ n ∈ clause d, c.Holds n) ↔ Everywhere.clause c d :=
  match d with
  | ⟨e, b, _⟩ => by
    rw [clause, forall_mem_append, holds_expression e, holds_block b]
    rfl

theorem holds_functionBody (f : FunctionBody) :
    (∀ n ∈ functionBody f, c.Holds n) ↔ Everywhere.functionBody c f :=
  match f with
  | ⟨ns, _, b, _⟩ => by
    rw [functionBody, forall_mem_cons, forall_mem_append, holds_names, holds_block b]
    exact iff_of_eq (true_and _)

theorem holds_expression (e : Expression) :
    (∀ n ∈ expression e, c.Holds n) ↔ Everywhere.expression c e :=
  match e with
  | .nil _ | .boolean _ _ | .number _ _ | .string _ _ | .varargs _ => by
    rw [expression, forall_mem_singleton]
    exact (iff_of_eq (and_true _)).symm
  | .function body _ => by
    rw [expression, forall_mem_cons, holds_functionBody body]
    rfl
  | .primary p => by
    rw [expression, forall_mem_cons, holds_primary p]
    rfl
  | .table t => by
    rw [expression, forall_mem_cons, holds_table t]
    rfl
  | .binary _ left right _ => by
    rw [expression, forall_mem_cons, forall_mem_append, holds_expression left,
      holds_expression right]
    rfl
  | .unary _ operand _ => by
    rw [expression, forall_mem_cons, holds_expression operand]
    rfl

theorem holds_expressions (es : List Expression) :
    (∀ n ∈ expressions es, c.Holds n) ↔ Everywhere.expressions c es :=
  match es with
  | [] => iff_of_true (forall_mem_nil _) trivial
  | e :: es => by
    rw [expressions, forall_mem_append, holds_expression e, holds_expressions es]
    rfl

theorem holds_primary (p : Primary) :
    (∀ n ∈ primary p, c.Holds n) ↔ Everywhere.primary c p :=
  match p with
  | .var v => by
    rw [primary, forall_mem_cons, holds_target v]
    exact iff_of_eq (true_and _)
  | .call f => by
    rw [primary, forall_mem_cons, holds_call f]
    exact iff_of_eq (true_and _)
  | .parenthesized e _ => by
    rw [primary, forall_mem_cons, holds_expression e]
    exact iff_of_eq (true_and _)

theorem holds_target (v : Variable) : (∀ n ∈ target v, c.Holds n) ↔ Everywhere.target c v :=
  match v with
  | .name n => by
    rw [target, forall_mem_cons, forall_mem_singleton]
    exact iff_of_eq (true_and _)
  | .index base key _ => by
    rw [target, forall_mem_cons, forall_mem_append, holds_primary base, holds_expression key]
    exact iff_of_eq (true_and _)
  | .member base n _ => by
    rw [target, forall_mem_cons, forall_mem_append, holds_primary base, forall_mem_singleton]
    exact iff_of_eq (true_and _)

theorem holds_targets (vs : List Variable) :
    (∀ n ∈ targets vs, c.Holds n) ↔ Everywhere.targets c vs :=
  match vs with
  | [] => iff_of_true (forall_mem_nil _) trivial
  | v :: vs => by
    rw [targets, forall_mem_append, holds_target v, holds_targets vs]
    rfl

theorem holds_call (f : Call) : (∀ n ∈ call f, c.Holds n) ↔ Everywhere.call c f :=
  match f with
  | .function callee args _ => by
    rw [call, forall_mem_cons, forall_mem_append, holds_primary callee, holds_arguments args]
    exact iff_of_eq (true_and _)
  | .method receiver n args _ => by
    rw [call, forall_mem_cons, forall_mem_append, forall_mem_cons, holds_primary receiver,
      holds_arguments args]
    exact iff_of_eq (true_and _)

theorem holds_arguments (a : Arguments) :
    (∀ n ∈ arguments a, c.Holds n) ↔ Everywhere.arguments c a :=
  match a with
  | .list es _ => by
    rw [arguments, forall_mem_cons, holds_expressions es]
    exact iff_of_eq (true_and _)
  | .table t => by
    rw [arguments, forall_mem_cons, holds_table t]
    exact iff_of_eq (true_and _)
  | .string _ _ => iff_of_true (by rw [arguments, forall_mem_singleton]; trivial) trivial

theorem holds_table (t : Table) : (∀ n ∈ table t, c.Holds n) ↔ Everywhere.table c t :=
  match t with
  | ⟨fs, _⟩ => by
    rw [table, holds_fields fs]
    rfl

theorem holds_fields (fs : List Field) :
    (∀ n ∈ fields fs, c.Holds n) ↔ Everywhere.fields c fs :=
  match fs with
  | [] => iff_of_true (forall_mem_nil _) trivial
  | f :: fs => by
    rw [fields, forall_mem_append, holds_field f, holds_fields fs]
    rfl

theorem holds_field (f : Field) : (∀ n ∈ field f, c.Holds n) ↔ Everywhere.field c f :=
  match f with
  | .keyed key value _ => by
    rw [field, forall_mem_cons, forall_mem_append, holds_expression key, holds_expression value]
    exact iff_of_eq (true_and _)
  | .named n value _ => by
    rw [field, forall_mem_cons, forall_mem_cons, holds_expression value]
    exact iff_of_eq (true_and _)
  | .positional value => by
    rw [field, forall_mem_cons, holds_expression value]
    exact iff_of_eq (true_and _)

end

end Nodes

/-! ## Weaker and combined conditions -/

/-- What `c` asks of a node is at least what `d` asks of it. -/
structure Condition.Implies (c d : Condition) : Prop where
  statements : ∀ ss, c.statements ss → d.statements ss
  statement : ∀ s, c.statement s → d.statement s
  expression : ∀ e, c.expression e → d.expression e
  name : ∀ n, c.name n → d.name n

/-- What both `c` and `d` ask of a node. -/
def Condition.and (c d : Condition) : Condition where
  statements ss := c.statements ss ∧ d.statements ss
  statement s := c.statement s ∧ d.statement s
  expression e := c.expression e ∧ d.expression e
  name n := c.name n ∧ d.name n

section

variable {c d : Condition}

theorem Condition.Implies.holds (h : c.Implies d) {n : Node} (hn : c.Holds n) : d.Holds n := by
  cases n with
  | block b => exact h.statements b.statements hn
  | statement s => exact h.statement s hn
  | expression e => exact h.expression e hn
  | name n => exact h.name n hn
  | _ => trivial

theorem Condition.holds_and {n : Node} : (c.and d).Holds n ↔ c.Holds n ∧ d.Holds n := by
  cases n <;> simp [Holds, Condition.and]

namespace Everywhere

theorem mono_block (h : c.Implies d) (b : Block) (hb : block c b) : block d b := by
  rw [← Nodes.holds_block] at hb ⊢
  exact fun n hn => h.holds (hb n hn)

theorem and_block {b : Block} : block (c.and d) b ↔ block c b ∧ block d b := by
  simp only [← Nodes.holds_block, Condition.holds_and, forall_and]

end Everywhere

end

end LuaSource
