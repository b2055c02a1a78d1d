-- SUMMARY: Trees in which no base of a power has a sign.
import LuaSource.Proofs.Tree.Signs

/-!
# Signs of bases

It makes a difference how tight a sign binds only where it is the sign of the base of a power: the
power is negated or its base is. No tree wraps both.
-/

namespace LuaSource

/-- Whether the base of a power has no sign. -/
def Expression.HasPlainBase : Expression → Prop
  | .binary .power left _ _ => left.behindSign? = none
  | _ => True

/-- No base of a power is a number with a sign. -/
def plainBases : Condition where
  expression := Expression.HasPlainBase

namespace Signs

/-! ## Without signs at bases -/

mutual

/-- Without signs at the bases of powers, it is the same how tight a power binds. -/
theorem block_of_plainBases (b : Block) (h : Everywhere.block plainBases b) :
    block true b = block false b :=
  match b with
  | ⟨ss, _⟩ => by rw [block, block, statements_of_plainBases ss h.2]

theorem statements_of_plainBases (ss : List Statement) (h : Everywhere.statements plainBases ss) :
    statements true ss = statements false ss :=
  match ss with
  | [] => rfl
  | s :: ss => by
    rw [statements, statements, statement_of_plainBases s h.1, statements_of_plainBases ss h.2]

theorem statement_of_plainBases (s : Statement) (h : Everywhere.statement plainBases s) :
    statement true s = statement false s :=
  match s with
  | .assign vs es _ => by
    rw [statement, statement, targets_of_plainBases vs h.2.1, expressions_of_plainBases es h.2.2]
  | .localAssign _ es _ => by rw [statement, statement, expressions_of_plainBases es h.2.2]
  | .call c => by rw [statement, statement, call_of_plainBases c h.2]
  | .doBlock b _ => by rw [statement, statement, block_of_plainBases b h.2]
  | .whileLoop e b _ | .repeatLoop b e _ => by
    rw [statement, statement, expression_of_plainBases e h.2.1, block_of_plainBases b h.2.2]
  | .conditional cs none _ => by
    rw [statement, statement, otherwise, otherwise, clauses_of_plainBases cs h.2.1]
  | .conditional cs (some b) _ => by
    rw [statement, statement, otherwise, otherwise, clauses_of_plainBases cs h.2.1,
      block_of_plainBases b h.2.2]
  | .numericFor _ start limit none b _ => by
    rw [statement, statement, step, step, expression_of_plainBases start h.2.2.1,
      expression_of_plainBases limit h.2.2.2.1, block_of_plainBases b h.2.2.2.2.2]
  | .numericFor _ start limit (some e) b _ => by
    rw [statement, statement, step, step, expression_of_plainBases start h.2.2.1,
      expression_of_plainBases limit h.2.2.2.1, expression_of_plainBases e h.2.2.2.2.1,
      block_of_plainBases b h.2.2.2.2.2]
  | .genericFor _ es b _ => by
    rw [statement, statement, expressions_of_plainBases es h.2.2.1,
      block_of_plainBases b h.2.2.2]
  | .function _ body _ | .localFunction _ body _ => by
    rw [statement, statement, functionBody_of_plainBases body h.2.2]
  | .label _ _ | .jump _ _ | .breakLoop _ => rfl
  | .returnValues es _ => by rw [statement, statement, expressions_of_plainBases es h.2]

theorem clauses_of_plainBases (cs : List Clause) (h : Everywhere.clauses plainBases cs) :
    clauses true cs = clauses false cs :=
  match cs with
  | [] => rfl
  | ⟨e, b, _⟩ :: cs => by
    rw [clauses, clauses, expression_of_plainBases e h.1.1, block_of_plainBases b h.1.2,
      clauses_of_plainBases cs h.2]

theorem functionBody_of_plainBases (f : FunctionBody) (h : Everywhere.functionBody plainBases f) :
    functionBody true f = functionBody false f :=
  match f with
  | ⟨_, _, b, _⟩ => by rw [functionBody, functionBody, block_of_plainBases b h.2]

theorem expression_of_plainBases (e : Expression) (h : Everywhere.expression plainBases e) :
    expression true e = expression false e :=
  match e with
  | .nil _ | .boolean _ _ | .number _ _ | .string _ _ | .varargs _ => rfl
  | .function body _ => by rw [expression, expression, functionBody_of_plainBases body h.2]
  | .primary p => by rw [expression, expression, primary_of_plainBases p h.2]
  | .table t => by rw [expression, expression, table_of_plainBases t h.2]
  | .binary op left right _ => by
    have hplain : takes? true op left = none := by
      cases op with
      | power => exact h.1
      | _ => rfl
    have hloose : takes? false op left = none := rfl
    rw [expression, expression, hplain, hloose]
    dsimp only
    rw [expression_of_plainBases left h.2.1, expression_of_plainBases right h.2.2]
  | .unary _ operand _ => by rw [expression, expression, expression_of_plainBases operand h.2]

theorem expressions_of_plainBases (es : List Expression) (h : Everywhere.expressions plainBases es) :
    expressions true es = expressions false es :=
  match es with
  | [] => rfl
  | e :: es => by
    rw [expressions, expressions, expression_of_plainBases e h.1, expressions_of_plainBases es h.2]

theorem primary_of_plainBases (p : Primary) (h : Everywhere.primary plainBases p) :
    primary true p = primary false p :=
  match p with
  | .var v => by rw [primary, primary, target_of_plainBases v h]
  | .call c => by rw [primary, primary, call_of_plainBases c h]
  | .parenthesized e _ => by rw [primary, primary, expression_of_plainBases e h]

theorem target_of_plainBases (v : Variable) (h : Everywhere.target plainBases v) :
    target true v = target false v :=
  match v with
  | .name _ => rfl
  | .index base key _ => by
    rw [target, target, primary_of_plainBases base h.1, expression_of_plainBases key h.2]
  | .member base _ _ => by rw [target, target, primary_of_plainBases base h.1]

theorem targets_of_plainBases (vs : List Variable) (h : Everywhere.targets plainBases vs) :
    targets true vs = targets false vs :=
  match vs with
  | [] => rfl
  | v :: vs => by
    rw [targets, targets, target_of_plainBases v h.1, targets_of_plainBases vs h.2]

theorem call_of_plainBases (c : Call) (h : Everywhere.call plainBases c) :
    call true c = call false c :=
  match c with
  | .function callee args _ => by
    rw [call, call, primary_of_plainBases callee h.1, arguments_of_plainBases args h.2]
  | .method receiver _ args _ => by
    rw [call, call, primary_of_plainBases receiver h.1, arguments_of_plainBases args h.2.2]

theorem arguments_of_plainBases (a : Arguments) (h : Everywhere.arguments plainBases a) :
    arguments true a = arguments false a :=
  match a with
  | .list es _ => by rw [arguments, arguments, expressions_of_plainBases es h]
  | .table t => by rw [arguments, arguments, table_of_plainBases t h]
  | .string _ _ => rfl

theorem table_of_plainBases (t : Table) (h : Everywhere.table plainBases t) :
    table true t = table false t :=
  match t with
  | ⟨fs, _⟩ => by rw [table, table, fields_of_plainBases fs h]

theorem fields_of_plainBases (fs : List Field) (h : Everywhere.fields plainBases fs) :
    fields true fs = fields false fs :=
  match fs with
  | [] => rfl
  | f :: fs => by rw [fields, fields, field_of_plainBases f h.1, fields_of_plainBases fs h.2]

theorem field_of_plainBases (f : Field) (h : Everywhere.field plainBases f) :
    field true f = field false f :=
  match f with
  | .keyed key value _ => by
    rw [field, field, expression_of_plainBases key h.1, expression_of_plainBases value h.2]
  | .named _ value _ => by rw [field, field, expression_of_plainBases value h.2]
  | .positional value => by rw [field, field, expression_of_plainBases value h]

end

/-! ## Trees that wrap both -/

/-- The signs of what stands in parentheses do not reach out of them. -/
theorem exists_of_wraps_parenthesized {tight : Bool} {e e' : Expression} {span : Span}
    (h : Wraps.expression (Shape.expression (expression tight e))
      (.primary (.parenthesized e' span))) :
    ∃ inner innerSpan, e = .primary (.parenthesized inner innerSpan) ∧
      Wraps.expression (Shape.expression (expression tight inner)) e' := by
  cases e with
  | primary p =>
    cases p with
    | parenthesized inner innerSpan =>
      obtain ⟨_, ⟨e'', h, rfl⟩, heq⟩ := h
      cases heq
      exact ⟨inner, innerSpan, rfl, h⟩
    | var v =>
      obtain ⟨_, ⟨_, _, rfl⟩, heq⟩ := h
      cases heq
    | call c =>
      obtain ⟨_, ⟨_, _, rfl⟩, heq⟩ := h
      cases heq
  | number x numberSpan =>
    rw [expression, number] at h
    split at h
    · obtain ⟨_, _, heq⟩ := h
      cases heq
    · cases h
  | binary op left right binarySpan =>
    rw [expression] at h
    split at h
    · obtain ⟨_, _, heq⟩ := h
      cases heq
    · obtain ⟨_, _, _, _, heq⟩ := h
      cases heq
  | function body functionSpan =>
    obtain ⟨_, _, heq⟩ := h
    cases heq
  | table t =>
    obtain ⟨_, _, heq⟩ := h
    cases heq
  | unary op operand unarySpan =>
    obtain ⟨_, _, heq⟩ := h
    cases heq
  | _ => cases h

/-- No expression wraps one with its signs both as it is and in parentheses. -/
theorem not_wraps_parenthesized {tight tight' : Bool} (e : Expression) {e' : Expression}
    {span : Span}
    (h : Wraps.expression (Shape.expression (expression tight e))
      (.primary (.parenthesized e' span))) :
    ¬ Wraps.expression (Shape.expression (expression tight' e)) e' := by
  intro h'
  obtain ⟨inner, _, rfl, hinner⟩ := exists_of_wraps_parenthesized h
  obtain ⟨_, ⟨e'', hinner', rfl⟩, rfl⟩ := h'
  exact not_wraps_parenthesized inner hinner hinner'
termination_by sizeOf e
decreasing_by
  subst_vars
  decreasing_tactic

theorem exists_of_operand {e operand : Expression}
    (h : Wraps.operand (Wraps.expression (Shape.expression (expression false e))) operand)
    (h' : Wraps.operand (Wraps.expression (Shape.expression (expression true e))) operand) :
    ∃ e', Wraps.expression (Shape.expression (expression false e)) e' ∧
      Wraps.expression (Shape.expression (expression true e)) e' := by
  obtain h | ⟨e', _, h, rfl⟩ := h
  · obtain h' | ⟨e', _, h', rfl⟩ := h'
    · exact ⟨operand, h, h'⟩
    · exact absurd h' (not_wraps_parenthesized e h)
  · obtain h' | ⟨_, _, h', heq⟩ := h'
    · exact absurd h (not_wraps_parenthesized e h')
    · cases heq
      exact ⟨e', h, h'⟩

theorem hasPlainBase_of_takes? {op : BinaryOperator} {left right : Expression} {span : Span}
    (h : takes? true op left = none) : (Expression.binary op left right span).HasPlainBase := by
  cases op with
  | power => exact h
  | _ => trivial

-- Two trees of each kind are at hand: the recursion is on the one that has the signs.
mutual

/-- If a tree wraps both, then no base of a power has a sign. -/
theorem block_plain (b : Block) {b' : Block}
    (h : Wraps.block (Shape.block (block false b)) b')
    (h' : Wraps.block (Shape.block (block true b)) b') :
    Everywhere.block plainBases b :=
  match b', b, h, h' with
  | _, ⟨ss, _⟩, ⟨_, h, rfl⟩, ⟨_, h', rfl⟩ => ⟨trivial, statements_plain ss h h'⟩
termination_by structural b

theorem statements_plain (ss : List Statement) {ss' : List Statement}
    (h : Wraps.statements (Shape.statements (statements false ss)) ss')
    (h' : Wraps.statements (Shape.statements (statements true ss)) ss') :
    Everywhere.statements plainBases ss :=
  match ss', ss, h, h' with
  | _, [], _, _ => trivial
  | _, s :: ss, ⟨_, _, h, hs, rfl⟩, ⟨_, _, h', hs', rfl⟩ =>
    ⟨statement_plain s h h', statements_plain ss hs hs'⟩
termination_by structural ss

theorem statement_plain (s : Statement) {s' : Statement}
    (h : Wraps.statement (Shape.statement (statement false s)) s')
    (h' : Wraps.statement (Shape.statement (statement true s)) s') :
    Everywhere.statement plainBases s :=
  match s', s, h, h' with
  | _, .assign vs es _, ⟨_, _, hvs, hes, rfl⟩, ⟨_, _, hvs', hes', rfl⟩ =>
    ⟨trivial, targets_plain vs hvs hvs', expressions_plain es hes hes'⟩
  | _, .localAssign _ es _, ⟨_, h, rfl⟩, ⟨_, h', rfl⟩ =>
    ⟨trivial, fun _ _ => trivial, expressions_plain es h h'⟩
  | _, .call c, ⟨_, h, rfl⟩, ⟨_, h', rfl⟩ => ⟨trivial, call_plain c h h'⟩
  | _, .doBlock b _, ⟨_, h, rfl⟩, ⟨_, h', rfl⟩ => ⟨trivial, block_plain b h h'⟩
  | _, .whileLoop e b _, ⟨_, _, he, hb, rfl⟩, ⟨_, _, he', hb', rfl⟩ =>
    ⟨trivial, expression_plain e he he', block_plain b hb hb'⟩
  | _, .repeatLoop b e _, ⟨_, _, hb, he, rfl⟩, ⟨_, _, hb', he', rfl⟩ =>
    ⟨trivial, expression_plain e he he', block_plain b hb hb'⟩
  | _, .conditional cs none _, ⟨_, _, hcs, rfl, rfl⟩, ⟨_, _, hcs', _, rfl⟩ =>
    ⟨trivial, clauses_plain cs hcs hcs', trivial⟩
  | _, .conditional cs (some b) _, ⟨_, _, hcs, ⟨_, hb, rfl⟩, rfl⟩, ⟨_, _, hcs', ⟨_, hb', rfl⟩, rfl⟩ =>
    ⟨trivial, clauses_plain cs hcs hcs', block_plain b hb hb'⟩
  | _, .numericFor _ start limit none b _, ⟨_, _, _, _, hstart, hlimit, rfl, hb, rfl⟩,
      ⟨_, _, _, _, hstart', hlimit', _, hb', rfl⟩ =>
    ⟨trivial, trivial, expression_plain start hstart hstart', expression_plain limit hlimit hlimit',
      trivial, block_plain b hb hb'⟩
  | _, .numericFor _ start limit (some e) b _, ⟨_, _, _, _, hstart, hlimit, ⟨_, he, rfl⟩, hb, rfl⟩,
      ⟨_, _, _, _, hstart', hlimit', ⟨_, he', rfl⟩, hb', rfl⟩ =>
    ⟨trivial, trivial, expression_plain start hstart hstart', expression_plain limit hlimit hlimit',
      expression_plain e he he', block_plain b hb hb'⟩
  | _, .genericFor _ es b _, ⟨_, _, hes, hb, rfl⟩, ⟨_, _, hes', hb', rfl⟩ =>
    ⟨trivial, fun _ _ => trivial, expressions_plain es hes hes', block_plain b hb hb'⟩
  | _, .function _ body _, ⟨_, h, rfl⟩, ⟨_, h', rfl⟩ =>
    ⟨trivial, fun _ _ => trivial, functionBody_plain body h h'⟩
  | _, .localFunction _ body _, ⟨_, h, rfl⟩, ⟨_, h', rfl⟩ =>
    ⟨trivial, trivial, functionBody_plain body h h'⟩
  | _, .label _ _, _, _ | _, .jump _ _, _, _ | _, .breakLoop _, _, _ => ⟨trivial, trivial⟩
  | _, .returnValues es _, ⟨_, h, rfl⟩, ⟨_, h', rfl⟩ => ⟨trivial, expressions_plain es h h'⟩
termination_by structural s

theorem clauses_plain (cs : List Clause) {cs' : List Clause}
    (h : Wraps.clauses (Shape.clauses (clauses false cs)) cs')
    (h' : Wraps.clauses (Shape.clauses (clauses true cs)) cs') :
    Everywhere.clauses plainBases cs :=
  match cs', cs, h, h' with
  | _, [], _, _ => trivial
  | _, ⟨e, b, _⟩ :: cs, ⟨_, _, ⟨_, _, he, hb, rfl⟩, h, rfl⟩, ⟨_, _, ⟨_, _, he', hb', rfl⟩, h', rfl⟩ =>
    ⟨⟨expression_plain e he he', block_plain b hb hb'⟩, clauses_plain cs h h'⟩
termination_by structural cs

theorem functionBody_plain (f : FunctionBody) {f' : FunctionBody}
    (h : Wraps.functionBody (Shape.functionBody (functionBody false f)) f')
    (h' : Wraps.functionBody (Shape.functionBody (functionBody true f)) f') :
    Everywhere.functionBody plainBases f :=
  match f', f, h, h' with
  | _, ⟨_, _, b, _⟩, ⟨_, h, rfl⟩, ⟨_, h', rfl⟩ => ⟨fun _ _ => trivial, block_plain b h h'⟩
termination_by structural f

theorem expression_plain (e : Expression) {e' : Expression}
    (h : Wraps.expression (Shape.expression (expression false e)) e')
    (h' : Wraps.expression (Shape.expression (expression true e)) e') :
    Everywhere.expression plainBases e :=
  match e', e, h, h' with
  | _, .nil _, _, _ | _, .boolean _ _, _, _ | _, .number _ _, _, _ | _, .string _ _, _, _
  | _, .varargs _, _, _ =>
    ⟨trivial, trivial⟩
  | _, .function body _, ⟨_, h, rfl⟩, ⟨_, h', rfl⟩ => ⟨trivial, functionBody_plain body h h'⟩
  | _, .primary p, ⟨_, h, rfl⟩, ⟨_, h', rfl⟩ => ⟨trivial, primary_plain p h h'⟩
  | _, .table t, ⟨_, h, rfl⟩, ⟨_, h', rfl⟩ => ⟨trivial, table_plain t h h'⟩
  | _, .binary op left right _, ⟨_, _, hleft, hright, rfl⟩, h' => by
    rw [expression] at h'
    split at h'
    · obtain ⟨_, _, heq⟩ := h'
      cases heq
    · next hnone =>
      obtain ⟨_, _, hleft', hright', heq⟩ := h'
      cases heq
      obtain ⟨_, hleft, hleft'⟩ := exists_of_operand hleft hleft'
      obtain ⟨_, hright, hright'⟩ := exists_of_operand hright hright'
      exact ⟨hasPlainBase_of_takes? hnone, expression_plain left hleft hleft',
        expression_plain right hright hright'⟩
  | _, .unary _ operand _, ⟨_, h, rfl⟩, ⟨_, h', heq⟩ => by
    cases heq
    obtain ⟨_, h, h'⟩ := exists_of_operand h h'
    exact ⟨trivial, expression_plain operand h h'⟩
termination_by structural e

theorem expressions_plain (es : List Expression) {es' : List Expression}
    (h : Wraps.expressions (Shape.expressions (expressions false es)) es')
    (h' : Wraps.expressions (Shape.expressions (expressions true es)) es') :
    Everywhere.expressions plainBases es :=
  match es', es, h, h' with
  | _, [], _, _ => trivial
  | _, e :: es, ⟨_, _, h, hs, rfl⟩, ⟨_, _, h', hs', rfl⟩ =>
    ⟨expression_plain e h h', expressions_plain es hs hs'⟩
termination_by structural es

theorem primary_plain (p : Primary) {p' : Primary}
    (h : Wraps.primary (Shape.primary (primary false p)) p')
    (h' : Wraps.primary (Shape.primary (primary true p)) p') :
    Everywhere.primary plainBases p :=
  match p', p, h, h' with
  | _, .var v, ⟨_, h, rfl⟩, ⟨_, h', rfl⟩ => target_plain v h h'
  | _, .call c, ⟨_, h, rfl⟩, ⟨_, h', rfl⟩ => call_plain c h h'
  | _, .parenthesized e _, ⟨_, h, rfl⟩, ⟨_, h', rfl⟩ => expression_plain e h h'
termination_by structural p

theorem target_plain (v : Variable) {v' : Variable}
    (h : Wraps.target (Shape.target (target false v)) v')
    (h' : Wraps.target (Shape.target (target true v)) v') :
    Everywhere.target plainBases v :=
  match v', v, h, h' with
  | _, .name _, _, _ => trivial
  | _, .index base key _, ⟨_, _, hbase, hkey, rfl⟩, ⟨_, _, hbase', hkey', rfl⟩ =>
    ⟨primary_plain base hbase hbase', expression_plain key hkey hkey'⟩
  | _, .member base _ _, ⟨_, h, rfl⟩, ⟨_, h', rfl⟩ => ⟨primary_plain base h h', trivial⟩
termination_by structural v

theorem targets_plain (vs : List Variable) {vs' : List Variable}
    (h : Wraps.targets (Shape.targets (targets false vs)) vs')
    (h' : Wraps.targets (Shape.targets (targets true vs)) vs') :
    Everywhere.targets plainBases vs :=
  match vs', vs, h, h' with
  | _, [], _, _ => trivial
  | _, v :: vs, ⟨_, _, h, hs, rfl⟩, ⟨_, _, h', hs', rfl⟩ =>
    ⟨target_plain v h h', targets_plain vs hs hs'⟩
termination_by structural vs

theorem call_plain (c : Call) {c' : Call}
    (h : Wraps.call (Shape.call (call false c)) c')
    (h' : Wraps.call (Shape.call (call true c)) c') :
    Everywhere.call plainBases c :=
  match c', c, h, h' with
  | _, .function callee args _, ⟨_, _, hcallee, hargs, rfl⟩, ⟨_, _, hcallee', hargs', rfl⟩ =>
    ⟨primary_plain callee hcallee hcallee', arguments_plain args hargs hargs'⟩
  | _, .method receiver _ args _, ⟨_, _, hreceiver, hargs, rfl⟩, ⟨_, _, hreceiver', hargs', rfl⟩ =>
    ⟨primary_plain receiver hreceiver hreceiver', trivial, arguments_plain args hargs hargs'⟩
termination_by structural c

theorem arguments_plain (a : Arguments) {a' : Arguments}
    (h : Wraps.arguments (Shape.arguments (arguments false a)) a')
    (h' : Wraps.arguments (Shape.arguments (arguments true a)) a') :
    Everywhere.arguments plainBases a :=
  match a', a, h, h' with
  | _, .list es _, ⟨_, h, rfl⟩, ⟨_, h', rfl⟩ => expressions_plain es h h'
  | _, .table t, ⟨_, h, rfl⟩, ⟨_, h', rfl⟩ => table_plain t h h'
  | _, .string _ _, _, _ => trivial
termination_by structural a

theorem table_plain (t : Table) {t' : Table}
    (h : Wraps.table (Shape.table (table false t)) t')
    (h' : Wraps.table (Shape.table (table true t)) t') :
    Everywhere.table plainBases t :=
  match t', t, h, h' with
  | _, ⟨fs, _⟩, ⟨_, h, rfl⟩, ⟨_, h', rfl⟩ => fields_plain fs h h'
termination_by structural t

theorem fields_plain (fs : List Field) {fs' : List Field}
    (h : Wraps.fields (Shape.fields (fields false fs)) fs')
    (h' : Wraps.fields (Shape.fields (fields true fs)) fs') :
    Everywhere.fields plainBases fs :=
  match fs', fs, h, h' with
  | _, [], _, _ => trivial
  | _, f :: fs, ⟨_, _, h, hs, rfl⟩, ⟨_, _, h', hs', rfl⟩ =>
    ⟨field_plain f h h', fields_plain fs hs hs'⟩
termination_by structural fs

theorem field_plain (f : Field) {f' : Field}
    (h : Wraps.field (Shape.field (field false f)) f')
    (h' : Wraps.field (Shape.field (field true f)) f') :
    Everywhere.field plainBases f :=
  match f', f, h, h' with
  | _, .keyed key value _, ⟨_, _, hkey, hvalue, rfl⟩, ⟨_, _, hkey', hvalue', rfl⟩ =>
    ⟨expression_plain key hkey hkey', expression_plain value hvalue hvalue'⟩
  | _, .named _ value _, ⟨_, h, rfl⟩, ⟨_, h', rfl⟩ => ⟨trivial, expression_plain value h h'⟩
  | _, .positional value, ⟨_, h, rfl⟩, ⟨_, h', rfl⟩ => expression_plain value h h'
termination_by structural f

end

end Signs

end LuaSource
