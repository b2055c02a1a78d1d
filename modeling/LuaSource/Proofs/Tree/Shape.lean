-- SUMMARY: Trees up to spans.
import LuaSource.Tree

/-!
# Shapes

The shape of a tree is the tree with every span put to the default one. Two trees that differ
in nothing but where their nodes stand have the same shape.
-/

namespace LuaSource.Shape

def name (n : Name) : Name := ⟨n.text, default⟩

def functionName (f : FunctionName) : FunctionName := ⟨f.path.map name, f.isMethod, default⟩

mutual

def block : Block → Block
  | ⟨ss, _⟩ => ⟨statements ss, default⟩

def statements : List Statement → List Statement
  | [] => []
  | s :: ss => statement s :: statements ss

def statement : Statement → Statement
  | .assign vs es _ => .assign (targets vs) (expressions es) default
  | .localAssign ns es _ => .localAssign (ns.map name) (expressions es) default
  | .call c => .call (call c)
  | .doBlock b _ => .doBlock (block b) default
  | .whileLoop e b _ => .whileLoop (expression e) (block b) default
  | .repeatLoop b e _ => .repeatLoop (block b) (expression e) default
  | .conditional cs b _ => .conditional (clauses cs) (otherwise b) default
  | .numericFor n start limit e b _ =>
    .numericFor (name n) (expression start) (expression limit) (step e) (block b) default
  | .genericFor ns es b _ => .genericFor (ns.map name) (expressions es) (block b) default
  | .function f body _ => .function (functionName f) (functionBody body) default
  | .localFunction n body _ => .localFunction (name n) (functionBody body) default
  | .label n _ => .label (name n) default
  | .jump n _ => .jump (name n) default
  | .returnValues es _ => .returnValues (expressions es) default
  | .breakLoop _ => .breakLoop default

def step : Option Expression → Option Expression
  | none => none
  | some e => some (expression e)

def otherwise : Option Block → Option Block
  | none => none
  | some b => some (block b)

def clauses : List Clause → List Clause
  | [] => []
  | c :: cs => clause c :: clauses cs

def clause : Clause → Clause
  | ⟨e, b, _⟩ => ⟨expression e, block b, default⟩

def functionBody : FunctionBody → FunctionBody
  | ⟨ns, hasVarargs, b, _⟩ => ⟨ns.map name, hasVarargs, block b, default⟩

def expression : Expression → Expression
  | .nil _ => .nil default
  | .boolean value _ => .boolean value default
  | .number value _ => .number value default
  | .string value _ => .string value default
  | .varargs _ => .varargs default
  | .function body _ => .function (functionBody body) default
  | .primary p => .primary (primary p)
  | .table t => .table (table t)
  | .binary op left right _ => .binary op (expression left) (expression right) default
  | .unary op operand _ => .unary op (expression operand) default

def expressions : List Expression → List Expression
  | [] => []
  | e :: es => expression e :: expressions es

def primary : Primary → Primary
  | .var v => .var (target v)
  | .call c => .call (call c)
  | .parenthesized e _ => .parenthesized (expression e) default

def target : Variable → Variable
  | .name n => .name (name n)
  | .index base key _ => .index (primary base) (expression key) default
  | .member base n _ => .member (primary base) (name n) default

def targets : List Variable → List Variable
  | [] => []
  | v :: vs => target v :: targets vs

def call : Call → Call
  | .function callee args _ => .function (primary callee) (arguments args) default
  | .method receiver n args _ => .method (primary receiver) (name n) (arguments args) default

def arguments : Arguments → Arguments
  | .list es _ => .list (expressions es) default
  | .table t => .table (table t)
  | .string value _ => .string value default

def table : Table → Table
  | ⟨fs, _⟩ => ⟨fields fs, default⟩

def fields : List Field → List Field
  | [] => []
  | f :: fs => field f :: fields fs

def field : Field → Field
  | .keyed key value _ => .keyed (expression key) (expression value) default
  | .named n value _ => .named (name n) (expression value) default
  | .positional value => .positional (expression value)

end

theorem isLast_statement (s : Statement) : (statement s).isLast = s.isLast := by
  cases s <;> rw [statement] <;> rfl

/-! ## Lists of nodes -/

theorem statements_eq_map (ss : List Statement) : statements ss = ss.map statement := by
  induction ss with
  | nil => rw [statements, List.map_nil]
  | cons s ss ih => rw [statements, List.map_cons, ih]

theorem step_eq_map (e : Option Expression) : step e = e.map expression := by
  cases e with
  | none => rw [step, Option.map_none]
  | some e => rw [step, Option.map_some]

theorem otherwise_eq_map (b : Option Block) : otherwise b = b.map block := by
  cases b with
  | none => rw [otherwise, Option.map_none]
  | some b => rw [otherwise, Option.map_some]

theorem clauses_eq_map (cs : List Clause) : clauses cs = cs.map clause := by
  induction cs with
  | nil => rw [clauses, List.map_nil]
  | cons c cs ih => rw [clauses, List.map_cons, ih]

theorem expressions_eq_map (es : List Expression) : expressions es = es.map expression := by
  induction es with
  | nil => rw [expressions, List.map_nil]
  | cons e es ih => rw [expressions, List.map_cons, ih]

theorem targets_eq_map (vs : List Variable) : targets vs = vs.map target := by
  induction vs with
  | nil => rw [targets, List.map_nil]
  | cons v vs ih => rw [targets, List.map_cons, ih]

theorem fields_eq_map (fs : List Field) : fields fs = fs.map field := by
  induction fs with
  | nil => rw [fields, List.map_nil]
  | cons f fs ih => rw [fields, List.map_cons, ih]

end LuaSource.Shape
