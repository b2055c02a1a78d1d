-- SUMMARY: The words of every node stand in the words of its tree.
import LuaSource.Proofs.Grammar.PlaceExpression
import LuaSource.Proofs.Tree.Node

/-!
# Placed nodes

In a word that a tree is placed by, every node of the tree has its own word, which takes up the
span of the node. Around the statements of a block there may be semicolons, which are not part of
its span.
-/

namespace LuaSource.Placing

/-! ## Words of nodes -/

/-- The statements of a block from the first to the last one, without semicolons around them. -/
def row (ss : List Statement) : Language Mark :=
  match ss.getLast? with
  | none => 1
  | some s =>
    statements none ss.dropLast * marked (Spelling.separation ss.dropLast.getLast? s) * statement s

def node : Node → Language Mark
  | .block b => if b.statements.isEmpty then 1 else spanned b.span (row b.statements)
  | .statement s => statement s
  | .expression e => expression e
  | .primary p => primary p
  | .target v => target v
  | .call c => call c
  | .arguments a => arguments a
  | .field f => field f
  | .functionBody f => functionBody f
  | .name n => name n

theorem marked_one_le : marked 1 ≤ 1 := by
  intro u hu
  obtain rfl := List.map_eq_nil_iff.1 ((Language.mem_one _).1 hu)
  exact Language.nil_mem_one

theorem row_concat (ss : List Statement) (s : Statement) :
    row (ss ++ [s]) =
      statements none ss * marked (Spelling.separation ss.getLast? s) * statement s := by
  simp [row]

theorem statements_le_row_mul (ss : List Statement) (s : Statement) :
    statements none (ss ++ [s]) ≤ row (ss ++ [s]) * marked (Spelling.trail s) := by
  rw [statements_concat, row_concat, Option.or_none]

theorem blockSpan_cons (start : Position) {s last : Statement} {ss : List Statement}
    (h : last ∈ (s :: ss).getLast?) :
    Grammar.blockSpan start (s :: ss) = Span.between s.span last.span := by
  rw [Grammar.blockSpan, Option.mem_def.1 h]
  rfl

/-- The statements of a block reach from the first one to the last one. -/
theorem fills_row {s : Statement} {ss : List Statement} {u : List Mark} (hu : u ∈ row (s :: ss)) :
    ∃ last ∈ (s :: ss).getLast?, Fills u (Span.between s.span last.span) := by
  have hfirst : ∀ {L : Language Mark}, marked (Spelling.separation none s) * L ≤ L := by
    intro L
    refine (mul_le_mul_left marked_one_le L).trans (one_mul L).le
  rcases List.eq_nil_or_concat ss with rfl | ⟨ss, last, rfl⟩
  · refine ⟨s, rfl, ?_⟩
    rw [← List.nil_append [s], row_concat, statements, one_mul] at hu
    exact fills_statement s u (hfirst hu)
  · rw [List.concat_eq_append, ← List.cons_append] at hu ⊢
    refine ⟨last, List.getLast?_concat, ?_⟩
    rw [row_concat, statements] at hu
    simp only [mul_assoc] at hu
    obtain ⟨x, hx, y, hy, rfl⟩ := Language.mem_mul.1 (hfirst hu)
    rw [← mul_assoc, ← mul_assoc] at hy
    obtain ⟨z, -, v, hv, rfl⟩ := Language.mem_mul.1 hy
    exact (fills_statement s x hx).append (fills_statement last v hv)

/-! ## Words in words -/

/-- Every word of `L` has a word of `M` in it. -/
def Contains (L M : Language Mark) : Prop := ∀ u ∈ L, ∃ x v y, v ∈ M ∧ u = x ++ (v ++ y)

namespace Contains

variable {K L M : Language Mark} {s : Symbol} {span : Span}

theorem refl (L : Language Mark) : Contains L L :=
  fun u hu => ⟨[], u, [], hu, (List.append_nil u).symm⟩

theorem of_le (hLK : L ≤ K) (h : Contains K M) : Contains L M := fun u hu => h u (hLK hu)

theorem one (L : Language Mark) : Contains L 1 :=
  fun u _ => ⟨[], [], u, Language.nil_mem_one, rfl⟩

theorem zero : Contains 0 M := fun u hu => absurd hu (Language.notMem_zero u)

theorem add (hK : Contains K M) (hL : Contains L M) : Contains (K + L) M :=
  fun u hu => ((Language.mem_add K L u).1 hu).elim (hK u) (hL u)

theorem left (h : Contains K M) : Contains (K * L) M := by
  intro u hu
  obtain ⟨a, ha, b, -, rfl⟩ := Language.mem_mul.1 hu
  obtain ⟨x, v, y, hv, rfl⟩ := h a ha
  exact ⟨x, v, y ++ b, hv, by simp only [List.append_assoc]⟩

theorem right (h : Contains L M) : Contains (K * L) M := by
  intro u hu
  obtain ⟨a, -, b, hb, rfl⟩ := Language.mem_mul.1 hu
  obtain ⟨x, v, y, hv, rfl⟩ := h b hb
  exact ⟨a ++ x, v, y, hv, by simp only [List.append_assoc]⟩

theorem spanned (h : Contains L M) : Contains (spanned span L) M := h.of_le (spanned_le span L)

theorem provided {p : Prop} (h : Contains L M) : Contains (provided p L) M :=
  h.of_le (provided_le p L)

theorem behind {L : Mark → Language Mark} (h : ∀ c, Contains (L c) M) :
    Contains (behind s L) M := by
  rintro u ⟨c, w, -, hw, rfl⟩
  obtain ⟨x, v, y, hv, rfl⟩ := h c w hw
  exact ⟨c :: x, v, y, hv, rfl⟩

theorem prod {Ls : List (Language Mark)} (hL : L ∈ Ls) (h : Contains L M) :
    Contains Ls.prod M := by
  induction Ls with
  | nil => exact absurd hL List.not_mem_nil
  | cons K Ks ih =>
    rw [List.prod_cons]
    rcases List.mem_cons.1 hL with rfl | hL
    · exact h.left
    · exact (ih hL).right

theorem list {α : Type} {item : α → Language Mark} {a : α} {as : List α} (ha : a ∈ as) :
    Contains (list s item as) (item a) := by
  cases as with
  | nil => exact absurd ha List.not_mem_nil
  | cons b bs =>
    rcases List.mem_cons.1 ha with rfl | ha
    · exact (refl _).left
    · exact (prod (List.mem_map_of_mem ha) (refl (item a)).right).right

theorem beforeParameter {n : Name} {ns : List Name} (hn : n ∈ ns) :
    Contains (beforeParameter ns) (name n) := prod (List.mem_map_of_mem hn) (refl (name n)).left

theorem parameters {n : Name} {ns : List Name} {hasVarargs : Bool} (hn : n ∈ ns) :
    Contains (parameters ns hasVarargs) (name n) := by
  unfold Placing.parameters
  split
  · exact (beforeParameter hn).left
  · rcases List.eq_nil_or_concat ns with rfl | ⟨ns, m, rfl⟩
    · exact absurd hn List.not_mem_nil
    · rw [List.concat_eq_append] at hn
      simp only [List.concat_eq_append, List.getLast?_concat, List.dropLast_concat]
      rcases List.mem_append.1 hn with hn | hn
      · exact (beforeParameter hn).left
      · rw [List.mem_singleton.1 hn]
        exact (refl _).right

theorem functionName {n : Name} {f : FunctionName} (hn : n ∈ f.path) :
    Contains (functionName f) (name n) := by
  refine spanned ?_
  split
  · rcases List.eq_nil_or_concat f.path with hpath | ⟨ns, m, hpath⟩
    · rw [hpath] at hn
      exact absurd hn List.not_mem_nil
    · rw [hpath, List.concat_eq_append] at hn
      simp only [hpath, List.concat_eq_append, List.getLast?_concat, List.dropLast_concat]
      rcases List.mem_append.1 hn with hn | hn
      · exact (list hn).left.left
      · rw [List.mem_singleton.1 hn]
        exact (refl _).right
  · exact list hn

theorem block (start : Position) (b : Block) : Contains (block start b) (node (.block b)) := by
  obtain ⟨ss, span⟩ := b
  cases ss with
  | nil => exact one _
  | cons s ss =>
    intro u hu
    rw [Placing.block] at hu
    obtain ⟨hspan, hu⟩ := hu
    obtain ⟨x, -, w, hw, rfl⟩ := Language.mem_mul.1 hu
    obtain ⟨init, last, heq⟩ := List.eq_nil_or_concat (s :: ss) |>.resolve_left (by simp)
    rw [heq, List.concat_eq_append] at hw
    obtain ⟨v, hv, y, -, rfl⟩ := Language.mem_mul.1 (statements_le_row_mul init last hw)
    rw [← List.concat_eq_append, ← heq] at hv
    refine ⟨x, v, y, ⟨hv, ?_⟩, rfl⟩
    obtain ⟨last', hlast', hfills⟩ := fills_row hv
    rw [show span = Span.between s.span last'.span from hspan.trans (blockSpan_cons start hlast')]
    exact hfills

end Contains

/-! ## Nodes of a tree -/

theorem contains_names {n : Node} {ns : List Name} (hn : n ∈ Nodes.names ns) :
    Contains (names ns) (node n) := by
  obtain ⟨m, hm, rfl⟩ := List.mem_map.1 hn
  exact .list hm

open List

mutual

theorem contains_block (start : Position) (b : Block) :
    ∀ n ∈ Nodes.block b, Contains (block start b) (node n) :=
  match b with
  | ⟨ss, span⟩ => by
    rw [Nodes.block, forall_mem_cons]
    refine ⟨.block start ⟨ss, span⟩, fun n hn => ?_⟩
    rw [block]
    exact .provided (.right (contains_statements none ss n hn))

theorem contains_statements (before : Option Statement) (ss : List Statement) :
    ∀ n ∈ Nodes.statements ss, Contains (statements before ss) (node n) :=
  match ss with
  | [] => forall_mem_nil _
  | s :: ss => by
    rw [Nodes.statements, forall_mem_append, statements]
    exact ⟨fun n hn => .left (.left (.right (contains_statement s n hn))),
      fun n hn => .right (contains_statements (some s) ss n hn)⟩

theorem contains_statement (s : Statement) :
    ∀ n ∈ Nodes.statement s, Contains (statement s) (node n) :=
  match s with
  | .assign vs es span => by
    rw [Nodes.statement, forall_mem_cons, forall_mem_append]
    refine ⟨.refl _, fun n hn => ?_, fun n hn => ?_⟩ <;> rw [statement] <;> apply Contains.spanned
    · exact .left (.left (contains_targets vs n hn))
    · exact .right (contains_expressions es n hn)
  | .localAssign ns es span => by
    rw [Nodes.statement, forall_mem_cons, forall_mem_append]
    refine ⟨.refl _, fun n hn => ?_, fun n hn => ?_⟩ <;> rw [statement] <;> apply Contains.spanned
    · exact .left (.right (contains_names hn))
    · exact .right (contains_assigned es n hn)
  | .call c => by
    rw [Nodes.statement, forall_mem_cons]
    refine ⟨.refl _, fun n hn => ?_⟩
    rw [statement]
    exact contains_call c n hn
  | .doBlock b span => by
    rw [Nodes.statement, forall_mem_cons]
    refine ⟨.refl _, fun n hn => ?_⟩
    rw [statement]
    exact .spanned (.left (.behind fun _ => contains_block _ b n hn))
  | .whileLoop e b span => by
    rw [Nodes.statement, forall_mem_cons, forall_mem_append]
    refine ⟨.refl _, fun n hn => ?_, fun n hn => ?_⟩ <;> rw [statement] <;> apply Contains.spanned
    · exact .left (.left (.right (contains_expression e n hn)))
    · exact .left (.right (.behind fun _ => contains_block _ b n hn))
  | .repeatLoop b e span => by
    rw [Nodes.statement, forall_mem_cons, forall_mem_append]
    refine ⟨.refl _, fun n hn => ?_, fun n hn => ?_⟩ <;> rw [statement] <;> apply Contains.spanned
    · exact .left (.left (.behind fun _ => contains_block _ b n hn))
    · exact .right (contains_expression e n hn)
  | .conditional cs b span => by
    rw [Nodes.statement, forall_mem_cons, forall_mem_append]
    refine ⟨.refl _, fun n hn => ?_, fun n hn => ?_⟩ <;> rw [statement] <;> apply Contains.spanned
    · exact .left (.left (contains_clauses cs n hn))
    · exact .left (.right (contains_otherwise b n hn))
  | .numericFor m start limit e b span => by
    rw [Nodes.statement, forall_mem_cons, forall_mem_cons, forall_mem_append, forall_mem_append,
      forall_mem_append]
    refine ⟨.refl _, ?_, fun n hn => ?_, fun n hn => ?_, fun n hn => ?_, fun n hn => ?_⟩ <;>
      rw [statement] <;> apply Contains.spanned <;> apply Contains.left
    · exact .left (.left (.left (.left (.left (.left (.right (.refl _)))))))
    · exact .left (.left (.left (.left (.right (contains_expression start n hn)))))
    · exact .left (.left (.right (contains_expression limit n hn)))
    · exact .left (.right (contains_step e n hn))
    · exact .right (.behind fun _ => contains_block _ b n hn)
  | .genericFor ns es b span => by
    rw [Nodes.statement, forall_mem_cons, forall_mem_append, forall_mem_append]
    refine ⟨.refl _, fun n hn => ?_, fun n hn => ?_, fun n hn => ?_⟩ <;>
      rw [statement] <;> apply Contains.spanned <;> apply Contains.left
    · exact .left (.left (.left (.right (contains_names hn))))
    · exact .left (.right (contains_expressions es n hn))
    · exact .right (.behind fun _ => contains_block _ b n hn)
  | .function f body span => by
    rw [Nodes.statement, forall_mem_cons, forall_mem_append]
    refine ⟨.refl _, fun n hn => ?_, fun n hn => ?_⟩ <;> rw [statement] <;> apply Contains.spanned
    · obtain ⟨m, hm, rfl⟩ := List.mem_map.1 hn
      exact .left (.right (.functionName hm))
    · exact .right (contains_functionBody body n hn)
  | .localFunction m body span => by
    rw [Nodes.statement, forall_mem_cons, forall_mem_cons]
    refine ⟨.refl _, ?_, fun n hn => ?_⟩ <;> rw [statement] <;> apply Contains.spanned
    · exact .left (.right (.refl _))
    · exact .right (contains_functionBody body n hn)
  | .label m span => by
    rw [Nodes.statement, forall_mem_cons, forall_mem_singleton]
    refine ⟨.refl _, ?_⟩
    rw [statement]
    exact .spanned (.left (.right (.refl _)))
  | .jump m span => by
    rw [Nodes.statement, forall_mem_cons, forall_mem_singleton]
    refine ⟨.refl _, ?_⟩
    rw [statement]
    exact .spanned (.right (.refl _))
  | .returnValues es span => by
    rw [Nodes.statement, forall_mem_cons]
    refine ⟨.refl _, fun n hn => ?_⟩
    rw [statement]
    exact .spanned (.right (contains_values es n hn))
  | .breakLoop span => by
    rw [Nodes.statement, forall_mem_singleton]
    exact .refl _

theorem contains_assigned (es : List Expression) :
    ∀ n ∈ Nodes.expressions es, Contains (assigned es) (node n) :=
  match es with
  | [] => forall_mem_nil _
  | e :: es => by
    rw [Nodes.expressions, forall_mem_append, assigned]
    exact ⟨fun n hn => .left (.right (contains_expression e n hn)),
      fun n hn => .right (contains_moreExpressions es n hn)⟩

theorem contains_step (e : Option Expression) :
    ∀ n ∈ Nodes.step e, Contains (step e) (node n) :=
  match e with
  | none => forall_mem_nil _
  | some e => by
    intro n hn
    rw [step]
    exact .right (contains_expression e n hn)

theorem contains_otherwise (b : Option Block) :
    ∀ n ∈ Nodes.otherwise b, Contains (otherwise b) (node n) :=
  match b with
  | none => forall_mem_nil _
  | some b => by
    intro n hn
    rw [otherwise]
    exact .behind fun _ => contains_block _ b n hn

theorem contains_clauses (cs : List Clause) :
    ∀ n ∈ Nodes.clauses cs, Contains (clauses cs) (node n) :=
  match cs with
  | [] => forall_mem_nil _
  | c :: cs => by
    rw [Nodes.clauses, forall_mem_append, clauses]
    exact ⟨fun n hn => .left (.behind fun _ => contains_clause _ c n hn),
      fun n hn => .right (contains_moreClauses cs n hn)⟩

theorem contains_moreClauses (cs : List Clause) :
    ∀ n ∈ Nodes.clauses cs, Contains (moreClauses cs) (node n) :=
  match cs with
  | [] => forall_mem_nil _
  | c :: cs => by
    rw [Nodes.clauses, forall_mem_append, moreClauses]
    exact ⟨fun n hn => .left (.behind fun _ => contains_clause _ c n hn),
      fun n hn => .right (contains_moreClauses cs n hn)⟩

theorem contains_clause (keyword : Span) (c : Clause) :
    ∀ n ∈ Nodes.clause c, Contains (clause keyword c) (node n) :=
  match c with
  | ⟨e, b, span⟩ => by
    rw [Nodes.clause, forall_mem_append, clause]
    exact ⟨fun n hn => .left (contains_expression e n hn),
      fun n hn => .right (.behind fun _ => .provided (contains_block _ b n hn))⟩

theorem contains_functionBody (f : FunctionBody) :
    ∀ n ∈ Nodes.functionBody f, Contains (functionBody f) (node n) :=
  match f with
  | ⟨ns, hasVarargs, b, span⟩ => by
    rw [Nodes.functionBody, forall_mem_cons, forall_mem_append]
    refine ⟨.refl _, fun n hn => ?_, fun n hn => ?_⟩ <;> rw [functionBody] <;>
      apply Contains.spanned <;> apply Contains.left
    · obtain ⟨m, hm, rfl⟩ := List.mem_map.1 hn
      exact .left (.right (.parameters hm))
    · exact .right (.behind fun _ => contains_block _ b n hn)

theorem contains_expression (e : Expression) :
    ∀ n ∈ Nodes.expression e, Contains (expression e) (node n) :=
  match e with
  | .nil span | .boolean value span | .number value span | .string value span | .varargs span => by
    rw [Nodes.expression, forall_mem_singleton]
    exact .refl _
  | .function body span => by
    rw [Nodes.expression, forall_mem_cons]
    refine ⟨.refl _, fun n hn => ?_⟩
    rw [expression]
    exact .spanned (.right (contains_functionBody body n hn))
  | .primary p => by
    rw [Nodes.expression, forall_mem_cons]
    refine ⟨.refl _, fun n hn => ?_⟩
    rw [expression]
    exact contains_primary p n hn
  | .table t => by
    rw [Nodes.expression, forall_mem_cons]
    refine ⟨.refl _, fun n hn => ?_⟩
    rw [expression]
    exact contains_table t n hn
  | .binary op left right span => by
    rw [Nodes.expression, forall_mem_cons, forall_mem_append]
    refine ⟨.refl _, fun n hn => ?_, fun n hn => ?_⟩ <;> rw [expression] <;>
      apply Contains.spanned
    · exact .left (.left (contains_expression left n hn))
    · exact .right (contains_expression right n hn)
  | .unary op operand span => by
    rw [Nodes.expression, forall_mem_cons]
    refine ⟨.refl _, fun n hn => ?_⟩
    rw [expression]
    exact .spanned (.right (contains_expression operand n hn))

theorem contains_expressions (es : List Expression) :
    ∀ n ∈ Nodes.expressions es, Contains (expressions es) (node n) :=
  match es with
  | [] => forall_mem_nil _
  | e :: es => by
    rw [Nodes.expressions, forall_mem_append, expressions]
    exact ⟨fun n hn => .left (contains_expression e n hn),
      fun n hn => .right (contains_moreExpressions es n hn)⟩

theorem contains_values (es : List Expression) :
    ∀ n ∈ Nodes.expressions es, Contains (values es) (node n) :=
  match es with
  | [] => forall_mem_nil _
  | e :: es => by
    rw [Nodes.expressions, forall_mem_append, values]
    exact ⟨fun n hn => .left (contains_expression e n hn),
      fun n hn => .right (contains_moreExpressions es n hn)⟩

theorem contains_moreExpressions (es : List Expression) :
    ∀ n ∈ Nodes.expressions es, Contains (moreExpressions es) (node n) :=
  match es with
  | [] => forall_mem_nil _
  | e :: es => by
    rw [Nodes.expressions, forall_mem_append, moreExpressions]
    exact ⟨fun n hn => .left (.right (contains_expression e n hn)),
      fun n hn => .right (contains_moreExpressions es n hn)⟩

theorem contains_primary (p : Primary) :
    ∀ n ∈ Nodes.primary p, Contains (primary p) (node n) :=
  match p with
  | .var v => by
    rw [Nodes.primary, forall_mem_cons]
    refine ⟨.refl _, fun n hn => ?_⟩
    rw [primary]
    exact contains_target v n hn
  | .call c => by
    rw [Nodes.primary, forall_mem_cons]
    refine ⟨.refl _, fun n hn => ?_⟩
    rw [primary]
    exact contains_call c n hn
  | .parenthesized e span => by
    rw [Nodes.primary, forall_mem_cons]
    refine ⟨.refl _, fun n hn => ?_⟩
    rw [primary]
    exact .spanned (.left (.right (contains_expression e n hn)))

theorem contains_target (v : Variable) :
    ∀ n ∈ Nodes.target v, Contains (target v) (node n) :=
  match v with
  | .name m => by
    rw [Nodes.target, forall_mem_cons, forall_mem_singleton]
    refine ⟨.refl _, ?_⟩
    rw [target]
    exact .refl _
  | .index base key span => by
    rw [Nodes.target, forall_mem_cons, forall_mem_append]
    refine ⟨.refl _, fun n hn => ?_, fun n hn => ?_⟩ <;> rw [target] <;> apply Contains.spanned
    · exact .left (.left (.left (contains_primary base n hn)))
    · exact .left (.right (contains_expression key n hn))
  | .member base m span => by
    rw [Nodes.target, forall_mem_cons, forall_mem_append, forall_mem_singleton]
    refine ⟨.refl _, fun n hn => ?_, ?_⟩ <;> rw [target] <;> apply Contains.spanned
    · exact .left (.left (contains_primary base n hn))
    · exact .right (.refl _)

theorem contains_targets (vs : List Variable) :
    ∀ n ∈ Nodes.targets vs, Contains (targets vs) (node n) :=
  match vs with
  | [] => forall_mem_nil _
  | v :: vs => by
    rw [Nodes.targets, forall_mem_append, targets]
    exact ⟨fun n hn => .left (contains_target v n hn),
      fun n hn => .right (contains_moreTargets vs n hn)⟩

theorem contains_moreTargets (vs : List Variable) :
    ∀ n ∈ Nodes.targets vs, Contains (moreTargets vs) (node n) :=
  match vs with
  | [] => forall_mem_nil _
  | v :: vs => by
    rw [Nodes.targets, forall_mem_append, moreTargets]
    exact ⟨fun n hn => .left (.right (contains_target v n hn)),
      fun n hn => .right (contains_moreTargets vs n hn)⟩

theorem contains_call (c : Call) : ∀ n ∈ Nodes.call c, Contains (call c) (node n) :=
  match c with
  | .function callee args span => by
    rw [Nodes.call, forall_mem_cons, forall_mem_append]
    refine ⟨.refl _, fun n hn => ?_, fun n hn => ?_⟩ <;> rw [call] <;> apply Contains.spanned
    · exact .left (contains_primary callee n hn)
    · exact .right (contains_arguments args n hn)
  | .method receiver m args span => by
    rw [Nodes.call, forall_mem_cons, forall_mem_append, forall_mem_cons]
    refine ⟨.refl _, fun n hn => ?_, ?_, fun n hn => ?_⟩ <;> rw [call] <;> apply Contains.spanned
    · exact .left (.left (.left (contains_primary receiver n hn)))
    · exact .left (.right (.refl _))
    · exact .right (contains_arguments args n hn)

theorem contains_arguments (a : Arguments) :
    ∀ n ∈ Nodes.arguments a, Contains (arguments a) (node n) :=
  match a with
  | .list es span => by
    rw [Nodes.arguments, forall_mem_cons]
    refine ⟨.refl _, fun n hn => ?_⟩
    rw [arguments]
    exact .spanned (.left (.right (contains_values es n hn)))
  | .table t => by
    rw [Nodes.arguments, forall_mem_cons]
    refine ⟨.refl _, fun n hn => ?_⟩
    rw [arguments]
    exact contains_table t n hn
  | .string value span => by
    rw [Nodes.arguments, forall_mem_singleton]
    exact .refl _

theorem contains_table (t : Table) : ∀ n ∈ Nodes.table t, Contains (table t) (node n) :=
  match t with
  | ⟨fs, span⟩ => by
    intro n hn
    rw [table]
    exact .spanned (.left (.right (contains_fields fs n hn)))

theorem contains_fields (fs : List Field) :
    ∀ n ∈ Nodes.fields fs, Contains (fields fs) (node n) :=
  match fs with
  | [] => forall_mem_nil _
  | f :: fs => by
    rw [Nodes.fields, forall_mem_append, fields]
    refine ⟨fun n hn => .left (contains_field f n hn),
      fun n hn => .right (.add (.right (contains_fields fs n hn)) ?_)⟩
    split
    case isTrue hfs =>
      rw [List.isEmpty_iff.1 hfs] at hn
      exact absurd hn not_mem_nil
    case isFalse => exact .zero

theorem contains_field (f : Field) : ∀ n ∈ Nodes.field f, Contains (field f) (node n) :=
  match f with
  | .keyed key value span => by
    rw [Nodes.field, forall_mem_cons, forall_mem_append]
    refine ⟨.refl _, fun n hn => ?_, fun n hn => ?_⟩ <;> rw [field] <;> apply Contains.spanned
    · exact .left (.left (.left (.right (contains_expression key n hn))))
    · exact .right (contains_expression value n hn)
  | .named m value span => by
    rw [Nodes.field, forall_mem_cons, forall_mem_cons]
    refine ⟨.refl _, ?_, fun n hn => ?_⟩ <;> rw [field] <;> apply Contains.spanned
    · exact .left (.left (.refl _))
    · exact .right (contains_expression value n hn)
  | .positional value => by
    rw [Nodes.field, forall_mem_cons]
    refine ⟨.refl _, fun n hn => ?_⟩
    rw [field]
    exact contains_expression value n hn

end

end LuaSource.Placing
