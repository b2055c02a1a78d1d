-- SUMMARY: Conditions on every node of a tree.
import LuaSource.Tree

/-!
# Conditions on all nodes

A condition on trees is given by what it asks of a block's statements in a row, of a single
statement, of an expression and of a name. It holds of a tree if every node meets it.
-/

namespace LuaSource

structure Condition where
  statements : List Statement → Prop := fun _ => True
  statement : Statement → Prop := fun _ => True
  expression : Expression → Prop := fun _ => True
  name : Name → Prop := fun _ => True

namespace Everywhere

variable (c : Condition)

def names (ns : List Name) : Prop := ∀ n ∈ ns, c.name n

mutual

def block : Block → Prop
  | ⟨ss, _⟩ => c.statements ss ∧ statements ss

def statements : List Statement → Prop
  | [] => True
  | s :: ss => statement s ∧ statements ss

def statement (s : Statement) : Prop :=
  c.statement s ∧
    match s with
    | .assign vs es _ => targets vs ∧ expressions es
    | .localAssign ns es _ => names c ns ∧ expressions es
    | .call f => call f
    | .doBlock b _ => block b
    | .whileLoop e b _ | .repeatLoop b e _ => expression e ∧ block b
    | .conditional cs b _ => clauses cs ∧ otherwise b
    | .numericFor n start limit e b _ =>
      c.name n ∧ expression start ∧ expression limit ∧ step e ∧ block b
    | .genericFor ns es b _ => names c ns ∧ expressions es ∧ block b
    | .function f body _ => names c f.path ∧ functionBody body
    | .localFunction n body _ => c.name n ∧ functionBody body
    | .label n _ | .jump n _ => c.name n
    | .returnValues es _ => expressions es
    | .breakLoop _ => True

def step : Option Expression → Prop
  | none => True
  | some e => expression e

def otherwise : Option Block → Prop
  | none => True
  | some b => block b

def clauses : List Clause → Prop
  | [] => True
  | d :: ds => clause d ∧ clauses ds

def clause : Clause → Prop
  | ⟨e, b, _⟩ => expression e ∧ block b

def functionBody : FunctionBody → Prop
  | ⟨ns, _, b, _⟩ => names c ns ∧ block b

def expression (e : Expression) : Prop :=
  c.expression e ∧
    match e with
    | .nil _ | .boolean _ _ | .number _ _ | .string _ _ | .varargs _ => True
    | .function body _ => functionBody body
    | .primary p => primary p
    | .table t => table t
    | .binary _ left right _ => expression left ∧ expression right
    | .unary _ operand _ => expression operand

def expressions : List Expression → Prop
  | [] => True
  | e :: es => expression e ∧ expressions es

def primary : Primary → Prop
  | .var v => target v
  | .call f => call f
  | .parenthesized e _ => expression e

def target : Variable → Prop
  | .name n => c.name n
  | .index base key _ => primary base ∧ expression key
  | .member base n _ => primary base ∧ c.name n

def targets : List Variable → Prop
  | [] => True
  | v :: vs => target v ∧ targets vs

def call : Call → Prop
  | .function callee args _ => primary callee ∧ arguments args
  | .method receiver n args _ => primary receiver ∧ c.name n ∧ arguments args

def arguments : Arguments → Prop
  | .list es _ => expressions es
  | .table t => table t
  | .string _ _ => True

def table : Table → Prop
  | ⟨fs, _⟩ => fields fs

def fields : List Field → Prop
  | [] => True
  | f :: fs => field f ∧ fields fs

def field : Field → Prop
  | .keyed key value _ => expression key ∧ expression value
  | .named n value _ => c.name n ∧ expression value
  | .positional value => expression value

end

/-! ## Lists of nodes -/

variable {c : Condition}

theorem statements_iff {ss : List Statement} : statements c ss ↔ ∀ s ∈ ss, statement c s := by
  induction ss with
  | nil => simp [statements]
  | cons s ss ih => simp [statements, ih]

theorem clauses_iff {cs : List Clause} : clauses c cs ↔ ∀ d ∈ cs, clause c d := by
  induction cs with
  | nil => simp [clauses]
  | cons d cs ih => simp [clauses, ih]

theorem expressions_iff {es : List Expression} :
    expressions c es ↔ ∀ e ∈ es, expression c e := by
  induction es with
  | nil => simp [expressions]
  | cons e es ih => simp [expressions, ih]

theorem targets_iff {vs : List Variable} : targets c vs ↔ ∀ v ∈ vs, target c v := by
  induction vs with
  | nil => simp [targets]
  | cons v vs ih => simp [targets, ih]

theorem fields_iff {fs : List Field} : fields c fs ↔ ∀ f ∈ fs, field c f := by
  induction fs with
  | nil => simp [fields]
  | cons f fs ih => simp [fields, ih]

end Everywhere

end LuaSource
