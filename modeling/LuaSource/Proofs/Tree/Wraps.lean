-- SUMMARY: Trees that differ in parentheses around operands.
import LuaSource.Format.Parentheses

/-!
# More parentheses

A tree wraps another one if it is that tree with some operands of operators in parentheses.
Everything else is as it was. Putting the operands that need it into parentheses does no more
than that.
-/

namespace LuaSource.Wraps

/-- An operand as it is, or in parentheses. -/
def operand (same : Expression → Prop) (e : Expression) : Prop :=
  same e ∨ ∃ inner span, same inner ∧ e = .primary (.parenthesized inner span)

mutual

/-- Whether the second tree is the first with some operands in parentheses. -/
def block : Block → Block → Prop
  | ⟨ss, span⟩ => fun b => ∃ ss', statements ss ss' ∧ b = ⟨ss', span⟩

def statements : List Statement → List Statement → Prop
  | [] => (· = [])
  | s :: ss => fun ts => ∃ s' ss', statement s s' ∧ statements ss ss' ∧ ts = s' :: ss'

def statement : Statement → Statement → Prop
  | .assign vs es span => fun s =>
    ∃ vs' es', targets vs vs' ∧ expressions es es' ∧ s = .assign vs' es' span
  | .localAssign ns es span => fun s => ∃ es', expressions es es' ∧ s = .localAssign ns es' span
  | .call c => fun s => ∃ c', call c c' ∧ s = .call c'
  | .doBlock b span => fun s => ∃ b', block b b' ∧ s = .doBlock b' span
  | .whileLoop e b span => fun s =>
    ∃ e' b', expression e e' ∧ block b b' ∧ s = .whileLoop e' b' span
  | .repeatLoop b e span => fun s =>
    ∃ b' e', block b b' ∧ expression e e' ∧ s = .repeatLoop b' e' span
  | .conditional cs b span => fun s =>
    ∃ cs' b', clauses cs cs' ∧ otherwise b b' ∧ s = .conditional cs' b' span
  | .numericFor n start limit e b span => fun s =>
    ∃ start' limit' e' b', expression start start' ∧ expression limit limit' ∧ step e e' ∧
      block b b' ∧ s = .numericFor n start' limit' e' b' span
  | .genericFor ns es b span => fun s =>
    ∃ es' b', expressions es es' ∧ block b b' ∧ s = .genericFor ns es' b' span
  | .function f body span => fun s => ∃ body', functionBody body body' ∧ s = .function f body' span
  | .localFunction n body span => fun s =>
    ∃ body', functionBody body body' ∧ s = .localFunction n body' span
  | .label n span => (· = .label n span)
  | .jump n span => (· = .jump n span)
  | .returnValues es span => fun s => ∃ es', expressions es es' ∧ s = .returnValues es' span
  | .breakLoop span => (· = .breakLoop span)

def step : Option Expression → Option Expression → Prop
  | none => (· = none)
  | some e => fun e' => ∃ inner, expression e inner ∧ e' = some inner

def otherwise : Option Block → Option Block → Prop
  | none => (· = none)
  | some b => fun b' => ∃ inner, block b inner ∧ b' = some inner

def clauses : List Clause → List Clause → Prop
  | [] => (· = [])
  | c :: cs => fun ds => ∃ c' cs', clause c c' ∧ clauses cs cs' ∧ ds = c' :: cs'

def clause : Clause → Clause → Prop
  | ⟨e, b, span⟩ => fun c => ∃ e' b', expression e e' ∧ block b b' ∧ c = ⟨e', b', span⟩

def functionBody : FunctionBody → FunctionBody → Prop
  | ⟨ns, hasVarargs, b, span⟩ => fun f => ∃ b', block b b' ∧ f = ⟨ns, hasVarargs, b', span⟩

def expression : Expression → Expression → Prop
  | .nil span => (· = .nil span)
  | .boolean value span => (· = .boolean value span)
  | .number value span => (· = .number value span)
  | .string value span => (· = .string value span)
  | .varargs span => (· = .varargs span)
  | .function body span => fun e => ∃ body', functionBody body body' ∧ e = .function body' span
  | .primary p => fun e => ∃ p', primary p p' ∧ e = .primary p'
  | .table t => fun e => ∃ t', table t t' ∧ e = .table t'
  | .binary op left right span => fun e =>
    ∃ left' right', operand (expression left) left' ∧ operand (expression right) right' ∧
      e = .binary op left' right' span
  | .unary op inner span => fun e =>
    ∃ inner', operand (expression inner) inner' ∧ e = .unary op inner' span

def expressions : List Expression → List Expression → Prop
  | [] => (· = [])
  | e :: es => fun ds => ∃ e' es', expression e e' ∧ expressions es es' ∧ ds = e' :: es'

def primary : Primary → Primary → Prop
  | .var v => fun p => ∃ v', target v v' ∧ p = .var v'
  | .call c => fun p => ∃ c', call c c' ∧ p = .call c'
  | .parenthesized e span => fun p => ∃ e', expression e e' ∧ p = .parenthesized e' span

def target : Variable → Variable → Prop
  | .name n => (· = .name n)
  | .index base key span => fun v =>
    ∃ base' key', primary base base' ∧ expression key key' ∧ v = .index base' key' span
  | .member base n span => fun v => ∃ base', primary base base' ∧ v = .member base' n span

def targets : List Variable → List Variable → Prop
  | [] => (· = [])
  | v :: vs => fun us => ∃ v' vs', target v v' ∧ targets vs vs' ∧ us = v' :: vs'

def call : Call → Call → Prop
  | .function callee args span => fun c =>
    ∃ callee' args', primary callee callee' ∧ arguments args args' ∧
      c = .function callee' args' span
  | .method receiver n args span => fun c =>
    ∃ receiver' args', primary receiver receiver' ∧ arguments args args' ∧
      c = .method receiver' n args' span

def arguments : Arguments → Arguments → Prop
  | .list es span => fun a => ∃ es', expressions es es' ∧ a = .list es' span
  | .table t => fun a => ∃ t', table t t' ∧ a = .table t'
  | .string value span => (· = .string value span)

def table : Table → Table → Prop
  | ⟨fs, span⟩ => fun t => ∃ fs', fields fs fs' ∧ t = ⟨fs', span⟩

def fields : List Field → List Field → Prop
  | [] => (· = [])
  | f :: fs => fun gs => ∃ f' fs', field f f' ∧ fields fs fs' ∧ gs = f' :: fs'

def field : Field → Field → Prop
  | .keyed key value span => fun f =>
    ∃ key' value', expression key key' ∧ expression value value' ∧ f = .keyed key' value' span
  | .named n value span => fun f => ∃ value', expression value value' ∧ f = .named n value' span
  | .positional value => fun f => ∃ value', expression value value' ∧ f = .positional value'

end

/-! ## Needed parentheses -/

theorem operand_inParensIf {same : Expression → Prop} {e : Expression} (h : same e)
    (needed : Bool) : operand same (e.inParensIf needed) := by
  cases needed with
  | false => exact .inl h
  | true => exact .inr ⟨e, e.span, h, rfl⟩

mutual

theorem block_parens (b : Block) : block b (Parens.block b) :=
  match b with
  | ⟨ss, _⟩ => ⟨_, statements_parens ss, rfl⟩

theorem statements_parens (ss : List Statement) : statements ss (Parens.statements ss) :=
  match ss with
  | [] => rfl
  | s :: ss => ⟨_, _, statement_parens s, statements_parens ss, rfl⟩

theorem statement_parens (s : Statement) : statement s (Parens.statement s) :=
  match s with
  | .assign vs es _ => ⟨_, _, targets_parens vs, expressions_parens es, rfl⟩
  | .localAssign _ es _ => ⟨_, expressions_parens es, rfl⟩
  | .call c => ⟨_, call_parens c, rfl⟩
  | .doBlock b _ => ⟨_, block_parens b, rfl⟩
  | .whileLoop e b _ => ⟨_, _, expression_parens e, block_parens b, rfl⟩
  | .repeatLoop b e _ => ⟨_, _, block_parens b, expression_parens e, rfl⟩
  | .conditional cs none _ => ⟨_, _, clauses_parens cs, rfl, rfl⟩
  | .conditional cs (some b) _ => ⟨_, _, clauses_parens cs, ⟨_, block_parens b, rfl⟩, rfl⟩
  | .numericFor _ start limit none b _ =>
    ⟨_, _, _, _, expression_parens start, expression_parens limit, rfl, block_parens b, rfl⟩
  | .numericFor _ start limit (some e) b _ =>
    ⟨_, _, _, _, expression_parens start, expression_parens limit, ⟨_, expression_parens e, rfl⟩,
      block_parens b, rfl⟩
  | .genericFor _ es b _ => ⟨_, _, expressions_parens es, block_parens b, rfl⟩
  | .function _ body _ | .localFunction _ body _ => ⟨_, functionBody_parens body, rfl⟩
  | .label _ _ | .jump _ _ | .breakLoop _ => rfl
  | .returnValues es _ => ⟨_, expressions_parens es, rfl⟩

theorem clauses_parens (cs : List Clause) : clauses cs (Parens.clauses cs) :=
  match cs with
  | [] => rfl
  | ⟨e, b, _⟩ :: cs =>
    ⟨_, _, ⟨_, _, expression_parens e, block_parens b, rfl⟩, clauses_parens cs, rfl⟩

theorem functionBody_parens (f : FunctionBody) : functionBody f (Parens.functionBody f) :=
  match f with
  | ⟨_, _, b, _⟩ => ⟨_, block_parens b, rfl⟩

theorem expression_parens (e : Expression) : expression e (Parens.expression e) :=
  match e with
  | .nil _ | .boolean _ _ | .number _ _ | .string _ _ | .varargs _ => rfl
  | .function body _ => ⟨_, functionBody_parens body, rfl⟩
  | .primary p => ⟨_, primary_parens p, rfl⟩
  | .table t => ⟨_, table_parens t, rfl⟩
  | .binary _ left right _ =>
    ⟨_, _, operand_inParensIf (expression_parens left) _,
      operand_inParensIf (expression_parens right) _, rfl⟩
  | .unary _ inner _ => ⟨_, operand_inParensIf (expression_parens inner) _, rfl⟩

theorem expressions_parens (es : List Expression) : expressions es (Parens.expressions es) :=
  match es with
  | [] => rfl
  | e :: es => ⟨_, _, expression_parens e, expressions_parens es, rfl⟩

theorem primary_parens (p : Primary) : primary p (Parens.primary p) :=
  match p with
  | .var v => ⟨_, target_parens v, rfl⟩
  | .call c => ⟨_, call_parens c, rfl⟩
  | .parenthesized e _ => ⟨_, expression_parens e, rfl⟩

theorem target_parens (v : Variable) : target v (Parens.target v) :=
  match v with
  | .name _ => rfl
  | .index base key _ => ⟨_, _, primary_parens base, expression_parens key, rfl⟩
  | .member base _ _ => ⟨_, primary_parens base, rfl⟩

theorem targets_parens (vs : List Variable) : targets vs (Parens.targets vs) :=
  match vs with
  | [] => rfl
  | v :: vs => ⟨_, _, target_parens v, targets_parens vs, rfl⟩

theorem call_parens (c : Call) : call c (Parens.call c) :=
  match c with
  | .function callee args _ => ⟨_, _, primary_parens callee, arguments_parens args, rfl⟩
  | .method receiver _ args _ => ⟨_, _, primary_parens receiver, arguments_parens args, rfl⟩

theorem arguments_parens (a : Arguments) : arguments a (Parens.arguments a) :=
  match a with
  | .list es _ => ⟨_, expressions_parens es, rfl⟩
  | .table t => ⟨_, table_parens t, rfl⟩
  | .string _ _ => rfl

theorem table_parens (t : Table) : table t (Parens.table t) :=
  match t with
  | ⟨fs, _⟩ => ⟨_, fields_parens fs, rfl⟩

theorem fields_parens (fs : List Field) : fields fs (Parens.fields fs) :=
  match fs with
  | [] => rfl
  | f :: fs => ⟨_, _, field_parens f, fields_parens fs, rfl⟩

theorem field_parens (f : Field) : field f (Parens.field f) :=
  match f with
  | .keyed key value _ => ⟨_, _, expression_parens key, expression_parens value, rfl⟩
  | .named _ value _ => ⟨_, expression_parens value, rfl⟩
  | .positional value => ⟨_, expression_parens value, rfl⟩

end

end LuaSource.Wraps
