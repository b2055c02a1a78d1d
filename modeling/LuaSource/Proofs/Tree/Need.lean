-- SUMMARY: How many levels of nesting a tree takes.
import LuaSource.Tree

/-!
# Levels that a tree needs

A block takes a level, and so do an expression in a place of its own, the right operand of a
binary operator and the operand of a unary one. What is chained behind one another, such as
suffixes and operators to the left, takes none.
-/

namespace LuaSource.Need

mutual

def block : Block → Nat
  | ⟨ss, _⟩ => 1 + statements ss

def statements : List Statement → Nat
  | [] => 0
  | s :: ss => max (statement s) (statements ss)

def statement : Statement → Nat
  | .assign vs es _ => max (targets vs) (expressions es)
  | .localAssign _ es _ | .returnValues es _ => expressions es
  | .call c => call c
  | .doBlock b _ => block b
  | .whileLoop e b _ | .repeatLoop b e _ => max (1 + expression e) (block b)
  | .conditional cs b _ => max (clauses cs) (otherwise b)
  | .numericFor _ start limit e b _ =>
    max (max (1 + expression start) (1 + expression limit)) (max (step e) (block b))
  | .genericFor _ es b _ => max (expressions es) (block b)
  | .function _ body _ | .localFunction _ body _ => functionBody body
  | .label _ _ | .jump _ _ | .breakLoop _ => 0

def step : Option Expression → Nat
  | none => 0
  | some e => 1 + expression e

def otherwise : Option Block → Nat
  | none => 0
  | some b => block b

def clauses : List Clause → Nat
  | [] => 0
  | c :: cs => max (clause c) (clauses cs)

def clause : Clause → Nat
  | ⟨e, b, _⟩ => max (1 + expression e) (block b)

def functionBody : FunctionBody → Nat
  | ⟨_, _, b, _⟩ => block b

def expression : Expression → Nat
  | .nil _ | .boolean _ _ | .number _ _ | .string _ _ | .varargs _ => 0
  | .function body _ => functionBody body
  | .primary p => primary p
  | .table t => table t
  | .binary _ left right _ => max (expression left) (1 + expression right)
  | .unary _ operand _ => 1 + expression operand

/-- Expressions in places of their own. -/
def expressions : List Expression → Nat
  | [] => 0
  | e :: es => max (1 + expression e) (expressions es)

def primary : Primary → Nat
  | .var v => target v
  | .call c => call c
  | .parenthesized e _ => 1 + expression e

def target : Variable → Nat
  | .name _ => 0
  | .index base key _ => max (primary base) (1 + expression key)
  | .member base _ _ => primary base

def targets : List Variable → Nat
  | [] => 0
  | v :: vs => max (target v) (targets vs)

def call : Call → Nat
  | .function callee args _ => max (primary callee) (arguments args)
  | .method receiver _ args _ => max (primary receiver) (arguments args)

def arguments : Arguments → Nat
  | .list es _ => expressions es
  | .table t => table t
  | .string _ _ => 0

def table : Table → Nat
  | ⟨fs, _⟩ => fields fs

def fields : List Field → Nat
  | [] => 0
  | f :: fs => max (field f) (fields fs)

def field : Field → Nat
  | .keyed key value _ => max (1 + expression key) (1 + expression value)
  | .named _ value _ | .positional value => 1 + expression value

end

/-! ## Lists of nodes -/

variable {depth : Nat}

theorem statements_le_iff {ss : List Statement} :
    statements ss ≤ depth ↔ ∀ s ∈ ss, statement s ≤ depth := by
  induction ss with
  | nil => simp [statements]
  | cons s ss ih => rw [statements, Nat.max_le, ih, List.forall_mem_cons]

theorem clauses_le_iff {cs : List Clause} : clauses cs ≤ depth ↔ ∀ c ∈ cs, clause c ≤ depth := by
  induction cs with
  | nil => simp [clauses]
  | cons c cs ih => rw [clauses, Nat.max_le, ih, List.forall_mem_cons]

theorem expressions_le_iff {es : List Expression} :
    expressions es ≤ depth ↔ ∀ e ∈ es, expression e < depth := by
  induction es with
  | nil => simp [expressions]
  | cons e es ih =>
    rw [expressions, Nat.max_le, ih, Nat.add_comm, Nat.succ_le_iff, List.forall_mem_cons]

theorem targets_le_iff {vs : List Variable} : targets vs ≤ depth ↔ ∀ v ∈ vs, target v ≤ depth := by
  induction vs with
  | nil => simp [targets]
  | cons v vs ih => rw [targets, Nat.max_le, ih, List.forall_mem_cons]

theorem fields_le_iff {fs : List Field} : fields fs ≤ depth ↔ ∀ f ∈ fs, field f ≤ depth := by
  induction fs with
  | nil => simp [fields]
  | cons f fs ih => rw [fields, Nat.max_le, ih, List.forall_mem_cons]

end LuaSource.Need
