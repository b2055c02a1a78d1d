-- SUMMARY: Trees that lack one of the pairs of parentheses that their operands need.
import LuaSource.Proofs.Tree.Parens

/-!
# One pair less

A tree is bared at one operand if it is another tree with the parentheses that its operands need,
but for those around that operand. To put parentheses where they are needed changes it.
-/

namespace LuaSource.Bared

/-- An operand without the parentheses that it needs, or one that is bared inside. -/
def operand (bared : Expression → Prop) (needed : Bool) (e e' : Expression) : Prop :=
  (needed = true ∧ e' = Parens.expression e) ∨
    ∃ inner, bared inner ∧ e' = inner.inParensIf needed

mutual

/-- Whether the second tree is the first one with the parentheses that its operands need, but for
one pair of them. -/
def block : Block → Block → Prop
  | ⟨ss, span⟩ => fun b => ∃ ss', statements ss ss' ∧ b = ⟨ss', span⟩

def statements : List Statement → List Statement → Prop
  | [] => fun _ => False
  | s :: ss => fun ts =>
    (∃ s', statement s s' ∧ ts = s' :: Parens.statements ss) ∨
      ∃ ss', statements ss ss' ∧ ts = Parens.statement s :: ss'

def statement : Statement → Statement → Prop
  | .assign vs es span => fun s =>
    (∃ vs', targets vs vs' ∧ s = .assign vs' (Parens.expressions es) span) ∨
      ∃ es', expressions es es' ∧ s = .assign (Parens.targets vs) es' span
  | .localAssign ns es span => fun s => ∃ es', expressions es es' ∧ s = .localAssign ns es' span
  | .call c => fun s => ∃ c', call c c' ∧ s = .call c'
  | .doBlock b span => fun s => ∃ b', block b b' ∧ s = .doBlock b' span
  | .whileLoop e b span => fun s =>
    (∃ e', expression e e' ∧ s = .whileLoop e' (Parens.block b) span) ∨
      ∃ b', block b b' ∧ s = .whileLoop (Parens.expression e) b' span
  | .repeatLoop b e span => fun s =>
    (∃ b', block b b' ∧ s = .repeatLoop b' (Parens.expression e) span) ∨
      ∃ e', expression e e' ∧ s = .repeatLoop (Parens.block b) e' span
  | .conditional cs b span => fun s =>
    (∃ cs', clauses cs cs' ∧ s = .conditional cs' (b.map Parens.block) span) ∨
      ∃ b', otherwise b b' ∧ s = .conditional (Parens.clauses cs) b' span
  | .numericFor n start limit e b span => fun s =>
    (∃ start', expression start start' ∧
      s = .numericFor n start' (Parens.expression limit) (e.map Parens.expression)
        (Parens.block b) span) ∨
    (∃ limit', expression limit limit' ∧
      s = .numericFor n (Parens.expression start) limit' (e.map Parens.expression)
        (Parens.block b) span) ∨
    (∃ e', step e e' ∧
      s = .numericFor n (Parens.expression start) (Parens.expression limit) e'
        (Parens.block b) span) ∨
    ∃ b', block b b' ∧
      s = .numericFor n (Parens.expression start) (Parens.expression limit)
        (e.map Parens.expression) b' span
  | .genericFor ns es b span => fun s =>
    (∃ es', expressions es es' ∧ s = .genericFor ns es' (Parens.block b) span) ∨
      ∃ b', block b b' ∧ s = .genericFor ns (Parens.expressions es) b' span
  | .function f body span => fun s =>
    ∃ body', functionBody body body' ∧ s = .function f body' span
  | .localFunction n body span => fun s =>
    ∃ body', functionBody body body' ∧ s = .localFunction n body' span
  | .returnValues es span => fun s => ∃ es', expressions es es' ∧ s = .returnValues es' span
  | .label _ _ | .jump _ _ | .breakLoop _ => fun _ => False

def step : Option Expression → Option Expression → Prop
  | none => fun _ => False
  | some e => fun e' => ∃ inner, expression e inner ∧ e' = some inner

def otherwise : Option Block → Option Block → Prop
  | none => fun _ => False
  | some b => fun b' => ∃ inner, block b inner ∧ b' = some inner

def clauses : List Clause → List Clause → Prop
  | [] => fun _ => False
  | ⟨e, b, span⟩ :: cs => fun ds =>
    (∃ e', expression e e' ∧ ds = ⟨e', Parens.block b, span⟩ :: Parens.clauses cs) ∨
    (∃ b', block b b' ∧ ds = ⟨Parens.expression e, b', span⟩ :: Parens.clauses cs) ∨
    ∃ cs', clauses cs cs' ∧ ds = ⟨Parens.expression e, Parens.block b, span⟩ :: cs'

def functionBody : FunctionBody → FunctionBody → Prop
  | ⟨ns, hasVarargs, b, span⟩ => fun f => ∃ b', block b b' ∧ f = ⟨ns, hasVarargs, b', span⟩

def expression : Expression → Expression → Prop
  | .nil _ | .boolean _ _ | .number _ _ | .string _ _ | .varargs _ => fun _ => False
  | .function body span => fun e => ∃ body', functionBody body body' ∧ e = .function body' span
  | .primary p => fun e => ∃ p', primary p p' ∧ e = .primary p'
  | .table t => fun e => ∃ t', table t t' ∧ e = .table t'
  | .binary op left right span => fun e =>
    (∃ left', operand (expression left) (left.needsParensBefore op) left left' ∧
      e = .binary op left'
        ((Parens.expression right).inParensIf (right.needsParensBehind op.rightPower)) span) ∨
    ∃ right', operand (expression right) (right.needsParensBehind op.rightPower) right right' ∧
      e = .binary op ((Parens.expression left).inParensIf (left.needsParensBefore op)) right' span
  | .unary op inner span => fun e =>
    ∃ inner', operand (expression inner) (inner.needsParensBehind UnaryOperator.power) inner
      inner' ∧ e = .unary op inner' span

def expressions : List Expression → List Expression → Prop
  | [] => fun _ => False
  | e :: es => fun ds =>
    (∃ e', expression e e' ∧ ds = e' :: Parens.expressions es) ∨
      ∃ es', expressions es es' ∧ ds = Parens.expression e :: es'

def primary : Primary → Primary → Prop
  | .var v => fun p => ∃ v', target v v' ∧ p = .var v'
  | .call c => fun p => ∃ c', call c c' ∧ p = .call c'
  | .parenthesized e span => fun p => ∃ e', expression e e' ∧ p = .parenthesized e' span

def target : Variable → Variable → Prop
  | .name _ => fun _ => False
  | .index base key span => fun v =>
    (∃ base', primary base base' ∧ v = .index base' (Parens.expression key) span) ∨
      ∃ key', expression key key' ∧ v = .index (Parens.primary base) key' span
  | .member base n span => fun v => ∃ base', primary base base' ∧ v = .member base' n span

def targets : List Variable → List Variable → Prop
  | [] => fun _ => False
  | v :: vs => fun us =>
    (∃ v', target v v' ∧ us = v' :: Parens.targets vs) ∨
      ∃ vs', targets vs vs' ∧ us = Parens.target v :: vs'

def call : Call → Call → Prop
  | .function callee args span => fun c =>
    (∃ callee', primary callee callee' ∧ c = .function callee' (Parens.arguments args) span) ∨
      ∃ args', arguments args args' ∧ c = .function (Parens.primary callee) args' span
  | .method receiver n args span => fun c =>
    (∃ receiver', primary receiver receiver' ∧
      c = .method receiver' n (Parens.arguments args) span) ∨
    ∃ args', arguments args args' ∧ c = .method (Parens.primary receiver) n args' span

def arguments : Arguments → Arguments → Prop
  | .list es span => fun a => ∃ es', expressions es es' ∧ a = .list es' span
  | .table t => fun a => ∃ t', table t t' ∧ a = .table t'
  | .string _ _ => fun _ => False

def table : Table → Table → Prop
  | ⟨fs, span⟩ => fun t => ∃ fs', fields fs fs' ∧ t = ⟨fs', span⟩

def fields : List Field → List Field → Prop
  | [] => fun _ => False
  | f :: fs => fun gs =>
    (∃ f', field f f' ∧ gs = f' :: Parens.fields fs) ∨
      ∃ fs', fields fs fs' ∧ gs = Parens.field f :: fs'

def field : Field → Field → Prop
  | .keyed key value span => fun f =>
    (∃ key', expression key key' ∧ f = .keyed key' (Parens.expression value) span) ∨
      ∃ value', expression value value' ∧ f = .keyed (Parens.expression key) value' span
  | .named n value span => fun f => ∃ value', expression value value' ∧ f = .named n value' span
  | .positional value => fun f => ∃ value', expression value value' ∧ f = .positional value'

end

/-! ## What parentheses would change -/

/-- A condition on operands that no primary expression meets, so that one in parentheses does
not. -/
structure Asks (needs : Expression → Bool) : Prop where
  primary : ∀ p, needs (.primary p) = false
  parens : ∀ e, needs (Parens.expression e) = needs e

theorem asks_before (op : BinaryOperator) : Asks (Expression.needsParensBefore op) :=
  ⟨fun _ => rfl, Parens.needsParensBefore_expression op⟩

theorem asks_behind (limit : Nat) : Asks (Expression.needsParensBehind limit) :=
  ⟨fun _ => rfl, Parens.needsParensBehind_expression limit⟩

variable {needs : Expression → Bool} {e e' : Expression}

/-- An operand that needs parentheses is changed by them. -/
theorem Asks.shape_inParens_ne (hasks : Asks needs) (h : needs e = true) :
    Shape.expression e'.inParens ≠ Shape.expression e := by
  intro hshape
  cases e with
  | primary p =>
    rw [hasks.primary] at h
    cases h
  | _ => cases hshape

/-- A bared operand is changed, whether the parentheses come around it or inside. -/
theorem operand_ne (hasks : Asks needs) {bared : Expression → Prop}
    (hbared : ∀ d, bared d → Shape.expression (Parens.expression d) ≠ Shape.expression d)
    (h : operand bared (needs e) e e') :
    Shape.expression ((Parens.expression e').inParensIf (needs e')) ≠ Shape.expression e' := by
  obtain ⟨hneeds, rfl⟩ | ⟨d, hd, rfl⟩ := h
  · rw [hasks.parens, hneeds]
    exact hasks.shape_inParens_ne ((hasks.parens e).trans hneeds)
  · cases needs e with
    | true =>
      rw [show needs (d.inParensIf true) = false from hasks.primary _]
      exact fun hshape =>
        hbared d hd (Primary.parenthesized.inj (Expression.primary.inj hshape)).1
    | false =>
      change Shape.expression ((Parens.expression d).inParensIf (needs d)) ≠ Shape.expression d
      cases hd' : needs d with
      | true => exact hasks.shape_inParens_ne hd'
      | false => exact hbared d hd

mutual

/-- A bared tree is not the tree with the parentheses that its operands need. -/
theorem block_ne (b : Block) {b' : Block} (h : block b b') :
    Shape.block (Parens.block b') ≠ Shape.block b' :=
  match b, b', h with
  | ⟨ss, _⟩, _, ⟨_, hss, rfl⟩ => fun hshape => statements_ne ss hss (Block.mk.inj hshape).1

theorem statements_ne (ss : List Statement) {ss' : List Statement} (h : statements ss ss') :
    Shape.statements (Parens.statements ss') ≠ Shape.statements ss' :=
  match ss, ss', h with
  | s :: _, _, .inl ⟨_, hs, rfl⟩ => fun hshape => statement_ne s hs (List.cons.inj hshape).1
  | _ :: ss, _, .inr ⟨_, hss, rfl⟩ => fun hshape =>
    statements_ne ss hss (List.cons.inj hshape).2

theorem statement_ne (s : Statement) {s' : Statement} (h : statement s s') :
    Shape.statement (Parens.statement s') ≠ Shape.statement s' :=
  match s, s', h with
  | .assign vs _ _, _, .inl ⟨_, hvs, rfl⟩ => fun hshape =>
    targets_ne vs hvs (Statement.assign.inj hshape).1
  | .assign _ es _, _, .inr ⟨_, hes, rfl⟩ => fun hshape =>
    expressions_ne es hes (Statement.assign.inj hshape).2.1
  | .localAssign _ es _, _, ⟨_, hes, rfl⟩ => fun hshape =>
    expressions_ne es hes (Statement.localAssign.inj hshape).2.1
  | .call c, _, ⟨_, hc, rfl⟩ => fun hshape => call_ne c hc (Statement.call.inj hshape)
  | .doBlock b _, _, ⟨_, hb, rfl⟩ => fun hshape => block_ne b hb (Statement.doBlock.inj hshape).1
  | .whileLoop e _ _, _, .inl ⟨_, he, rfl⟩ => fun hshape =>
    expression_ne e he (Statement.whileLoop.inj hshape).1
  | .whileLoop _ b _, _, .inr ⟨_, hb, rfl⟩ => fun hshape =>
    block_ne b hb (Statement.whileLoop.inj hshape).2.1
  | .repeatLoop b _ _, _, .inl ⟨_, hb, rfl⟩ => fun hshape =>
    block_ne b hb (Statement.repeatLoop.inj hshape).1
  | .repeatLoop _ e _, _, .inr ⟨_, he, rfl⟩ => fun hshape =>
    expression_ne e he (Statement.repeatLoop.inj hshape).2.1
  | .conditional cs none _, _, .inl ⟨_, hcs, rfl⟩
  | .conditional cs (some _) _, _, .inl ⟨_, hcs, rfl⟩ => fun hshape =>
    clauses_ne cs hcs (Statement.conditional.inj hshape).1
  | .conditional _ none _, _, .inr ⟨_, hb, _⟩ => hb.elim
  | .conditional _ (some b) _, _, .inr ⟨_, hb, rfl⟩ => by
    obtain ⟨_, hb, rfl⟩ := hb
    exact fun hshape => block_ne b hb (Option.some.inj (Statement.conditional.inj hshape).2.1)
  | .numericFor _ start _ none _ _, _, .inl ⟨_, hstart, rfl⟩
  | .numericFor _ start _ (some _) _ _, _, .inl ⟨_, hstart, rfl⟩ => fun hshape =>
    expression_ne start hstart (Statement.numericFor.inj hshape).2.1
  | .numericFor _ _ limit none _ _, _, .inr (.inl ⟨_, hlimit, rfl⟩)
  | .numericFor _ _ limit (some _) _ _, _, .inr (.inl ⟨_, hlimit, rfl⟩) => fun hshape =>
    expression_ne limit hlimit (Statement.numericFor.inj hshape).2.2.1
  | .numericFor _ _ _ none _ _, _, .inr (.inr (.inl ⟨_, he, _⟩)) => he.elim
  | .numericFor _ _ _ (some e) _ _, _, .inr (.inr (.inl ⟨_, he, rfl⟩)) => by
    obtain ⟨_, he, rfl⟩ := he
    exact fun hshape =>
      expression_ne e he (Option.some.inj (Statement.numericFor.inj hshape).2.2.2.1)
  | .numericFor _ _ _ none b _, _, .inr (.inr (.inr ⟨_, hb, rfl⟩))
  | .numericFor _ _ _ (some _) b _, _, .inr (.inr (.inr ⟨_, hb, rfl⟩)) => fun hshape =>
    block_ne b hb (Statement.numericFor.inj hshape).2.2.2.2.1
  | .genericFor _ es _ _, _, .inl ⟨_, hes, rfl⟩ => fun hshape =>
    expressions_ne es hes (Statement.genericFor.inj hshape).2.1
  | .genericFor _ _ b _, _, .inr ⟨_, hb, rfl⟩ => fun hshape =>
    block_ne b hb (Statement.genericFor.inj hshape).2.2.1
  | .function _ body _, _, ⟨_, hbody, rfl⟩ => fun hshape =>
    functionBody_ne body hbody (Statement.function.inj hshape).2.1
  | .localFunction _ body _, _, ⟨_, hbody, rfl⟩ => fun hshape =>
    functionBody_ne body hbody (Statement.localFunction.inj hshape).2.1
  | .returnValues es _, _, ⟨_, hes, rfl⟩ => fun hshape =>
    expressions_ne es hes (Statement.returnValues.inj hshape).1

theorem clauses_ne (cs : List Clause) {cs' : List Clause} (h : clauses cs cs') :
    Shape.clauses (Parens.clauses cs') ≠ Shape.clauses cs' :=
  match cs, cs', h with
  | ⟨e, _, _⟩ :: _, _, .inl ⟨_, he, rfl⟩ => fun hshape =>
    expression_ne e he (Clause.mk.inj (List.cons.inj hshape).1).1
  | ⟨_, b, _⟩ :: _, _, .inr (.inl ⟨_, hb, rfl⟩) => fun hshape =>
    block_ne b hb (Clause.mk.inj (List.cons.inj hshape).1).2.1
  | ⟨_, _, _⟩ :: cs, _, .inr (.inr ⟨_, hcs, rfl⟩) => fun hshape =>
    clauses_ne cs hcs (List.cons.inj hshape).2

theorem functionBody_ne (f : FunctionBody) {f' : FunctionBody} (h : functionBody f f') :
    Shape.functionBody (Parens.functionBody f') ≠ Shape.functionBody f' :=
  match f, f', h with
  | ⟨_, _, b, _⟩, _, ⟨_, hb, rfl⟩ => fun hshape => block_ne b hb (FunctionBody.mk.inj hshape).2.2.1

theorem expression_ne (e : Expression) {e' : Expression} (h : expression e e') :
    Shape.expression (Parens.expression e') ≠ Shape.expression e' :=
  match e, e', h with
  | .function body _, _, ⟨_, hbody, rfl⟩ => fun hshape =>
    functionBody_ne body hbody (Expression.function.inj hshape).1
  | .primary p, _, ⟨_, hp, rfl⟩ => fun hshape => primary_ne p hp (Expression.primary.inj hshape)
  | .table t, _, ⟨_, ht, rfl⟩ => fun hshape => table_ne t ht (Expression.table.inj hshape)
  | .binary op left _ _, _, .inl ⟨_, hleft, rfl⟩ => fun hshape =>
    operand_ne (asks_before op) (fun _ => expression_ne left) hleft
      (Expression.binary.inj hshape).2.1
  | .binary op _ right _, _, .inr ⟨_, hright, rfl⟩ => fun hshape =>
    operand_ne (asks_behind op.rightPower) (fun _ => expression_ne right) hright
      (Expression.binary.inj hshape).2.2.1
  | .unary _ inner _, _, ⟨_, hinner, rfl⟩ => fun hshape =>
    operand_ne (asks_behind UnaryOperator.power) (fun _ => expression_ne inner) hinner
      (Expression.unary.inj hshape).2.1

theorem expressions_ne (es : List Expression) {es' : List Expression} (h : expressions es es') :
    Shape.expressions (Parens.expressions es') ≠ Shape.expressions es' :=
  match es, es', h with
  | e :: _, _, .inl ⟨_, he, rfl⟩ => fun hshape => expression_ne e he (List.cons.inj hshape).1
  | _ :: es, _, .inr ⟨_, hes, rfl⟩ => fun hshape =>
    expressions_ne es hes (List.cons.inj hshape).2

theorem primary_ne (p : Primary) {p' : Primary} (h : primary p p') :
    Shape.primary (Parens.primary p') ≠ Shape.primary p' :=
  match p, p', h with
  | .var v, _, ⟨_, hv, rfl⟩ => fun hshape => target_ne v hv (Primary.var.inj hshape)
  | .call c, _, ⟨_, hc, rfl⟩ => fun hshape => call_ne c hc (Primary.call.inj hshape)
  | .parenthesized e _, _, ⟨_, he, rfl⟩ => fun hshape =>
    expression_ne e he (Primary.parenthesized.inj hshape).1

theorem target_ne (v : Variable) {v' : Variable} (h : target v v') :
    Shape.target (Parens.target v') ≠ Shape.target v' :=
  match v, v', h with
  | .index base _ _, _, .inl ⟨_, hbase, rfl⟩ => fun hshape =>
    primary_ne base hbase (Variable.index.inj hshape).1
  | .index _ key _, _, .inr ⟨_, hkey, rfl⟩ => fun hshape =>
    expression_ne key hkey (Variable.index.inj hshape).2.1
  | .member base _ _, _, ⟨_, hbase, rfl⟩ => fun hshape =>
    primary_ne base hbase (Variable.member.inj hshape).1

theorem targets_ne (vs : List Variable) {vs' : List Variable} (h : targets vs vs') :
    Shape.targets (Parens.targets vs') ≠ Shape.targets vs' :=
  match vs, vs', h with
  | v :: _, _, .inl ⟨_, hv, rfl⟩ => fun hshape => target_ne v hv (List.cons.inj hshape).1
  | _ :: vs, _, .inr ⟨_, hvs, rfl⟩ => fun hshape => targets_ne vs hvs (List.cons.inj hshape).2

theorem call_ne (c : Call) {c' : Call} (h : call c c') :
    Shape.call (Parens.call c') ≠ Shape.call c' :=
  match c, c', h with
  | .function callee _ _, _, .inl ⟨_, hcallee, rfl⟩ => fun hshape =>
    primary_ne callee hcallee (Call.function.inj hshape).1
  | .function _ args _, _, .inr ⟨_, hargs, rfl⟩ => fun hshape =>
    arguments_ne args hargs (Call.function.inj hshape).2.1
  | .method receiver _ _ _, _, .inl ⟨_, hreceiver, rfl⟩ => fun hshape =>
    primary_ne receiver hreceiver (Call.method.inj hshape).1
  | .method _ _ args _, _, .inr ⟨_, hargs, rfl⟩ => fun hshape =>
    arguments_ne args hargs (Call.method.inj hshape).2.2.1

theorem arguments_ne (a : Arguments) {a' : Arguments} (h : arguments a a') :
    Shape.arguments (Parens.arguments a') ≠ Shape.arguments a' :=
  match a, a', h with
  | .list es _, _, ⟨_, hes, rfl⟩ => fun hshape =>
    expressions_ne es hes (Arguments.list.inj hshape).1
  | .table t, _, ⟨_, ht, rfl⟩ => fun hshape => table_ne t ht (Arguments.table.inj hshape)

theorem table_ne (t : Table) {t' : Table} (h : table t t') :
    Shape.table (Parens.table t') ≠ Shape.table t' :=
  match t, t', h with
  | ⟨fs, _⟩, _, ⟨_, hfs, rfl⟩ => fun hshape => fields_ne fs hfs (Table.mk.inj hshape).1

theorem fields_ne (fs : List Field) {fs' : List Field} (h : fields fs fs') :
    Shape.fields (Parens.fields fs') ≠ Shape.fields fs' :=
  match fs, fs', h with
  | f :: _, _, .inl ⟨_, hf, rfl⟩ => fun hshape => field_ne f hf (List.cons.inj hshape).1
  | _ :: fs, _, .inr ⟨_, hfs, rfl⟩ => fun hshape => fields_ne fs hfs (List.cons.inj hshape).2

theorem field_ne (f : Field) {f' : Field} (h : field f f') :
    Shape.field (Parens.field f') ≠ Shape.field f' :=
  match f, f', h with
  | .keyed key _ _, _, .inl ⟨_, hkey, rfl⟩ => fun hshape =>
    expression_ne key hkey (Field.keyed.inj hshape).1
  | .keyed _ value _, _, .inr ⟨_, hvalue, rfl⟩ => fun hshape =>
    expression_ne value hvalue (Field.keyed.inj hshape).2.1
  | .named _ value _, _, ⟨_, hvalue, rfl⟩ => fun hshape =>
    expression_ne value hvalue (Field.named.inj hshape).2.1
  | .positional value, _, ⟨_, hvalue, rfl⟩ => fun hshape =>
    expression_ne value hvalue (Field.positional.inj hshape)

end

end LuaSource.Bared
