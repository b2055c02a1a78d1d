-- SUMMARY: The nodes of a tree can be trees of their own.
import LuaSource.Proofs.Tree.Conditions
import LuaSource.Proofs.Tree.Need

/-!
# Nodes on their own

A block is a chunk. So is a statement, which makes up a block by itself, and an expression, if it
is returned. On its own a node of a grammatical tree is grammatical, and takes no more levels than
the tree: there is a block around every statement, and around every expression there are a block
and the place that the expression has.
-/

namespace LuaSource

/-- Whether a node can be a tree of its own, an expression being returned. -/
def Node.Alone (depth : Nat) : Node → Prop
  | .block b => Everywhere.block grammatical b ∧ Need.block b ≤ depth
  | .statement s => Everywhere.statement grammatical s ∧ 1 + Need.statement s ≤ depth
  | .expression e => Everywhere.expression grammatical e ∧ 2 + Need.expression e ≤ depth
  | _ => True

variable {depth : Nat}

theorem Node.Alone.singleton {s : Statement} (h : Node.Alone depth (.statement s)) (span : Span) :
    Node.Alone depth (.block ⟨[s], span⟩) := by
  refine ⟨⟨fun _ hs => absurd hs List.not_mem_nil, h.1, trivial⟩, ?_⟩
  rw [Need.block, Need.statements, Need.statements, Nat.max_zero]
  exact h.2

theorem Node.Alone.returned {e : Expression} (h : Node.Alone depth (.expression e)) (span : Span) :
    Node.Alone depth (.statement (.returnValues [e] span)) := by
  refine ⟨⟨trivial, h.1, trivial⟩, ?_⟩
  rw [Need.statement, Need.expressions, Need.expressions, Nat.max_zero, ← Nat.add_assoc]
  exact h.2

namespace Nodes

open List

theorem alone_names (ns : List Name) : ∀ n ∈ names ns, n.Alone depth := by
  rw [names, forall_mem_map]
  exact fun _ _ => trivial

mutual

theorem alone_block (b : Block) (hb : Everywhere.block grammatical b)
    (hneed : Need.block b ≤ depth) : ∀ n ∈ block b, n.Alone depth :=
  match b with
  | ⟨ss, span⟩ => by
    rw [block, forall_mem_cons]
    refine ⟨⟨hb, hneed⟩, ?_⟩
    rw [Everywhere.block] at hb
    rw [Need.block] at hneed
    exact alone_statements ss hb.2 hneed

theorem alone_statements (ss : List Statement) (hss : Everywhere.statements grammatical ss)
    (hneed : 1 + Need.statements ss ≤ depth) : ∀ n ∈ statements ss, n.Alone depth :=
  match ss with
  | [] => forall_mem_nil _
  | s :: ss => by
    rw [Everywhere.statements] at hss
    rw [Need.statements] at hneed
    rw [statements, forall_mem_append]
    exact ⟨alone_statement s hss.1 (by omega), alone_statements ss hss.2 (by omega)⟩

theorem alone_statement (s : Statement) (hs : Everywhere.statement grammatical s)
    (hneed : 1 + Need.statement s ≤ depth) : ∀ n ∈ statement s, n.Alone depth :=
  match s with
  | .assign vs es span => by
    rw [statement, forall_mem_cons, forall_mem_append]
    refine ⟨⟨hs, hneed⟩, ?_⟩
    rw [Everywhere.statement] at hs
    rw [Need.statement] at hneed
    exact ⟨alone_targets vs hs.2.1 (by omega), alone_expressions es hs.2.2 (by omega)⟩
  | .localAssign ns es span => by
    rw [statement, forall_mem_cons, forall_mem_append]
    refine ⟨⟨hs, hneed⟩, alone_names ns, ?_⟩
    rw [Everywhere.statement] at hs
    rw [Need.statement] at hneed
    exact alone_expressions es hs.2.2 hneed
  | .call c => by
    rw [statement, forall_mem_cons]
    refine ⟨⟨hs, hneed⟩, ?_⟩
    rw [Everywhere.statement] at hs
    rw [Need.statement] at hneed
    exact alone_call c hs.2 hneed
  | .doBlock b span => by
    rw [statement, forall_mem_cons]
    refine ⟨⟨hs, hneed⟩, ?_⟩
    rw [Everywhere.statement] at hs
    rw [Need.statement] at hneed
    exact alone_block b hs.2 (by omega)
  | .whileLoop e b span => by
    rw [statement, forall_mem_cons, forall_mem_append]
    refine ⟨⟨hs, hneed⟩, ?_⟩
    rw [Everywhere.statement] at hs
    rw [Need.statement] at hneed
    exact ⟨alone_expression e hs.2.1 (by omega), alone_block b hs.2.2 (by omega)⟩
  | .repeatLoop b e span => by
    rw [statement, forall_mem_cons, forall_mem_append]
    refine ⟨⟨hs, hneed⟩, ?_⟩
    rw [Everywhere.statement] at hs
    rw [Need.statement] at hneed
    exact ⟨alone_block b hs.2.2 (by omega), alone_expression e hs.2.1 (by omega)⟩
  | .conditional cs b span => by
    rw [statement, forall_mem_cons, forall_mem_append]
    refine ⟨⟨hs, hneed⟩, ?_⟩
    rw [Everywhere.statement] at hs
    rw [Need.statement] at hneed
    exact ⟨alone_clauses cs hs.2.1 (by omega), alone_otherwise b hs.2.2 (by omega)⟩
  | .numericFor n start limit e b span => by
    rw [statement, forall_mem_cons, forall_mem_cons, forall_mem_append, forall_mem_append,
      forall_mem_append]
    refine ⟨⟨hs, hneed⟩, trivial, ?_⟩
    rw [Everywhere.statement] at hs
    rw [Need.statement] at hneed
    obtain ⟨-, -, hstart, hlimit, hstep, hb⟩ := hs
    exact ⟨alone_expression start hstart (by omega), alone_expression limit hlimit (by omega),
      alone_step e hstep (by omega), alone_block b hb (by omega)⟩
  | .genericFor ns es b span => by
    rw [statement, forall_mem_cons, forall_mem_append, forall_mem_append]
    refine ⟨⟨hs, hneed⟩, alone_names ns, ?_⟩
    rw [Everywhere.statement] at hs
    rw [Need.statement] at hneed
    exact ⟨alone_expressions es hs.2.2.1 (by omega), alone_block b hs.2.2.2 (by omega)⟩
  | .function f body span => by
    rw [statement, forall_mem_cons, forall_mem_append]
    refine ⟨⟨hs, hneed⟩, alone_names f.path, ?_⟩
    rw [Everywhere.statement] at hs
    rw [Need.statement] at hneed
    exact alone_functionBody body hs.2.2 (by omega)
  | .localFunction n body span => by
    rw [statement, forall_mem_cons, forall_mem_cons]
    refine ⟨⟨hs, hneed⟩, trivial, ?_⟩
    rw [Everywhere.statement] at hs
    rw [Need.statement] at hneed
    exact alone_functionBody body hs.2.2 (by omega)
  | .label n span | .jump n span => by
    rw [statement, forall_mem_cons, forall_mem_singleton]
    exact ⟨⟨hs, hneed⟩, trivial⟩
  | .returnValues es span => by
    rw [statement, forall_mem_cons]
    refine ⟨⟨hs, hneed⟩, ?_⟩
    rw [Everywhere.statement] at hs
    rw [Need.statement] at hneed
    exact alone_expressions es hs.2 hneed
  | .breakLoop span => by
    rw [statement, forall_mem_singleton]
    exact ⟨hs, hneed⟩

theorem alone_step (e : Option Expression) (he : Everywhere.step grammatical e)
    (hneed : 1 + Need.step e ≤ depth) : ∀ n ∈ step e, n.Alone depth :=
  match e with
  | none => forall_mem_nil _
  | some e => by
    rw [Everywhere.step] at he
    rw [Need.step] at hneed
    exact alone_expression e he (by omega)

theorem alone_otherwise (b : Option Block) (hb : Everywhere.otherwise grammatical b)
    (hneed : Need.otherwise b ≤ depth) : ∀ n ∈ otherwise b, n.Alone depth :=
  match b with
  | none => forall_mem_nil _
  | some b => by
    rw [Everywhere.otherwise] at hb
    rw [Need.otherwise] at hneed
    exact alone_block b hb hneed

theorem alone_clauses (cs : List Clause) (hcs : Everywhere.clauses grammatical cs)
    (hneed : 1 + Need.clauses cs ≤ depth) : ∀ n ∈ clauses cs, n.Alone depth :=
  match cs with
  | [] => forall_mem_nil _
  | c :: cs => by
    rw [Everywhere.clauses] at hcs
    rw [Need.clauses] at hneed
    rw [clauses, forall_mem_append]
    exact ⟨alone_clause c hcs.1 (by omega), alone_clauses cs hcs.2 (by omega)⟩

theorem alone_clause (c : Clause) (hc : Everywhere.clause grammatical c)
    (hneed : 1 + Need.clause c ≤ depth) : ∀ n ∈ clause c, n.Alone depth :=
  match c with
  | ⟨e, b, _⟩ => by
    rw [Everywhere.clause] at hc
    rw [Need.clause] at hneed
    rw [clause, forall_mem_append]
    exact ⟨alone_expression e hc.1 (by omega), alone_block b hc.2 (by omega)⟩

theorem alone_functionBody (f : FunctionBody) (hf : Everywhere.functionBody grammatical f)
    (hneed : Need.functionBody f ≤ depth) : ∀ n ∈ functionBody f, n.Alone depth :=
  match f with
  | ⟨ns, hasVarargs, b, span⟩ => by
    rw [Everywhere.functionBody] at hf
    rw [Need.functionBody] at hneed
    rw [functionBody, forall_mem_cons, forall_mem_append]
    exact ⟨trivial, alone_names ns, alone_block b hf.2 hneed⟩

theorem alone_expression (e : Expression) (he : Everywhere.expression grammatical e)
    (hneed : 2 + Need.expression e ≤ depth) : ∀ n ∈ expression e, n.Alone depth :=
  match e with
  | .nil _ | .boolean _ _ | .number _ _ | .string _ _ | .varargs _ => by
    rw [expression, forall_mem_singleton]
    exact ⟨he, hneed⟩
  | .function body span => by
    rw [expression, forall_mem_cons]
    refine ⟨⟨he, hneed⟩, ?_⟩
    rw [Everywhere.expression] at he
    rw [Need.expression] at hneed
    exact alone_functionBody body he.2 (by omega)
  | .primary p => by
    rw [expression, forall_mem_cons]
    refine ⟨⟨he, hneed⟩, ?_⟩
    rw [Everywhere.expression] at he
    rw [Need.expression] at hneed
    exact alone_primary p he.2 (by omega)
  | .table t => by
    rw [expression, forall_mem_cons]
    refine ⟨⟨he, hneed⟩, ?_⟩
    rw [Everywhere.expression] at he
    rw [Need.expression] at hneed
    exact alone_table t he.2 (by omega)
  | .binary op left right span => by
    rw [expression, forall_mem_cons, forall_mem_append]
    refine ⟨⟨he, hneed⟩, ?_⟩
    rw [Everywhere.expression] at he
    rw [Need.expression] at hneed
    exact ⟨alone_expression left he.2.1 (by omega), alone_expression right he.2.2 (by omega)⟩
  | .unary op operand span => by
    rw [expression, forall_mem_cons]
    refine ⟨⟨he, hneed⟩, ?_⟩
    rw [Everywhere.expression] at he
    rw [Need.expression] at hneed
    exact alone_expression operand he.2 (by omega)

theorem alone_expressions (es : List Expression) (hes : Everywhere.expressions grammatical es)
    (hneed : 1 + Need.expressions es ≤ depth) : ∀ n ∈ expressions es, n.Alone depth :=
  match es with
  | [] => forall_mem_nil _
  | e :: es => by
    rw [Everywhere.expressions] at hes
    rw [Need.expressions] at hneed
    rw [expressions, forall_mem_append]
    exact ⟨alone_expression e hes.1 (by omega), alone_expressions es hes.2 (by omega)⟩

theorem alone_primary (p : Primary) (hp : Everywhere.primary grammatical p)
    (hneed : 1 + Need.primary p ≤ depth) : ∀ n ∈ primary p, n.Alone depth :=
  match p with
  | .var v => by
    rw [Everywhere.primary] at hp
    rw [Need.primary] at hneed
    rw [primary, forall_mem_cons]
    exact ⟨trivial, alone_target v hp hneed⟩
  | .call c => by
    rw [Everywhere.primary] at hp
    rw [Need.primary] at hneed
    rw [primary, forall_mem_cons]
    exact ⟨trivial, alone_call c hp hneed⟩
  | .parenthesized e span => by
    rw [Everywhere.primary] at hp
    rw [Need.primary] at hneed
    rw [primary, forall_mem_cons]
    exact ⟨trivial, alone_expression e hp (by omega)⟩

theorem alone_target (v : Variable) (hv : Everywhere.target grammatical v)
    (hneed : 1 + Need.target v ≤ depth) : ∀ n ∈ target v, n.Alone depth :=
  match v with
  | .name n => by
    rw [target, forall_mem_cons, forall_mem_singleton]
    exact ⟨trivial, trivial⟩
  | .index base key span => by
    rw [Everywhere.target] at hv
    rw [Need.target] at hneed
    rw [target, forall_mem_cons, forall_mem_append]
    exact ⟨trivial, alone_primary base hv.1 (by omega), alone_expression key hv.2 (by omega)⟩
  | .member base n span => by
    rw [Everywhere.target] at hv
    rw [Need.target] at hneed
    rw [target, forall_mem_cons, forall_mem_append, forall_mem_singleton]
    exact ⟨trivial, alone_primary base hv.1 hneed, trivial⟩

theorem alone_targets (vs : List Variable) (hvs : Everywhere.targets grammatical vs)
    (hneed : 1 + Need.targets vs ≤ depth) : ∀ n ∈ targets vs, n.Alone depth :=
  match vs with
  | [] => forall_mem_nil _
  | v :: vs => by
    rw [Everywhere.targets] at hvs
    rw [Need.targets] at hneed
    rw [targets, forall_mem_append]
    exact ⟨alone_target v hvs.1 (by omega), alone_targets vs hvs.2 (by omega)⟩

theorem alone_call (c : Call) (hc : Everywhere.call grammatical c)
    (hneed : 1 + Need.call c ≤ depth) : ∀ n ∈ call c, n.Alone depth :=
  match c with
  | .function callee args span => by
    rw [Everywhere.call] at hc
    rw [Need.call] at hneed
    rw [call, forall_mem_cons, forall_mem_append]
    exact ⟨trivial, alone_primary callee hc.1 (by omega), alone_arguments args hc.2 (by omega)⟩
  | .method receiver n args span => by
    rw [Everywhere.call] at hc
    rw [Need.call] at hneed
    rw [call, forall_mem_cons, forall_mem_append, forall_mem_cons]
    exact ⟨trivial, alone_primary receiver hc.1 (by omega), trivial,
      alone_arguments args hc.2.2 (by omega)⟩

theorem alone_arguments (a : Arguments) (ha : Everywhere.arguments grammatical a)
    (hneed : 1 + Need.arguments a ≤ depth) : ∀ n ∈ arguments a, n.Alone depth :=
  match a with
  | .list es span => by
    rw [Everywhere.arguments] at ha
    rw [Need.arguments] at hneed
    rw [arguments, forall_mem_cons]
    exact ⟨trivial, alone_expressions es ha hneed⟩
  | .table t => by
    rw [Everywhere.arguments] at ha
    rw [Need.arguments] at hneed
    rw [arguments, forall_mem_cons]
    exact ⟨trivial, alone_table t ha hneed⟩
  | .string _ _ => by
    rw [arguments, forall_mem_singleton]
    trivial

theorem alone_table (t : Table) (ht : Everywhere.table grammatical t)
    (hneed : 1 + Need.table t ≤ depth) : ∀ n ∈ table t, n.Alone depth :=
  match t with
  | ⟨fs, _⟩ => by
    rw [Everywhere.table] at ht
    rw [Need.table] at hneed
    exact alone_fields fs ht hneed

theorem alone_fields (fs : List Field) (hfs : Everywhere.fields grammatical fs)
    (hneed : 1 + Need.fields fs ≤ depth) : ∀ n ∈ fields fs, n.Alone depth :=
  match fs with
  | [] => forall_mem_nil _
  | f :: fs => by
    rw [Everywhere.fields] at hfs
    rw [Need.fields] at hneed
    rw [fields, forall_mem_append]
    exact ⟨alone_field f hfs.1 (by omega), alone_fields fs hfs.2 (by omega)⟩

theorem alone_field (f : Field) (hf : Everywhere.field grammatical f)
    (hneed : 1 + Need.field f ≤ depth) : ∀ n ∈ field f, n.Alone depth :=
  match f with
  | .keyed key value span => by
    rw [Everywhere.field] at hf
    rw [Need.field] at hneed
    rw [field, forall_mem_cons, forall_mem_append]
    exact ⟨trivial, alone_expression key hf.1 (by omega), alone_expression value hf.2 (by omega)⟩
  | .named n value span => by
    rw [Everywhere.field] at hf
    rw [Need.field] at hneed
    rw [field, forall_mem_cons, forall_mem_cons]
    exact ⟨trivial, trivial, alone_expression value hf.2 (by omega)⟩
  | .positional value => by
    rw [Everywhere.field] at hf
    rw [Need.field] at hneed
    rw [field, forall_mem_cons]
    exact ⟨trivial, alone_expression value hf (by omega)⟩

end

end Nodes

end LuaSource
