-- SUMMARY: Nodes with no token of their own at an end share that end with a child.
import LuaSource.Proofs.Grammar.PlacedSpans

/-!
# Ends of nodes

Some nodes are made of their children at one of their ends, as an assignment at both and a negation
at the second. There the span of the node is the one of the child.
-/

namespace LuaSource

/-! ## Ends without a token -/

/-- No token of the node stands before its first child. -/
def Node.beginsWithChild : Node → Bool
  | .block b => !b.statements.isEmpty
  | .statement (.assign _ _ _) | .statement (.call _) => true
  | .expression (.primary _) | .expression (.binary _ _ _ _) => true
  | .primary (.var _) | .primary (.call _) => true
  | .target _ | .call _ => true
  | .field (.named _ _ _) | .field (.positional _) => true
  | _ => false

/-- No token of the node stands behind its last child. -/
def Node.endsWithChild : Node → Bool
  | .block b => !b.statements.isEmpty
  | .statement (.assign _ _ _) | .statement (.localAssign _ _ _) | .statement (.call _) => true
  | .statement (.repeatLoop _ _ _) | .statement (.jump _ _) => true
  | .statement (.function _ _ _) | .statement (.localFunction _ _ _) => true
  | .statement (.returnValues es _) => !es.isEmpty
  | .expression (.function _ _) | .expression (.primary _) => true
  | .expression (.binary _ _ _ _) | .expression (.unary _ _ _) => true
  | .primary (.var _) | .primary (.call _) => true
  | .target (.name _) | .target (.member _ _ _) => true
  | .call _ | .field _ => true
  | _ => false

namespace Placing

variable {source : List Char} {K L : Language Mark} {n : Node} {ns ms : List Node} {span : Span}

/-- Every word starts where the first of the nodes does. -/
def Begins (L : Language Mark) (ns : List Node) : Prop :=
  ∀ u ∈ L, ∃ n ∈ ns.head?, ∃ c ∈ u.head?, c.span.start = n.span.start

/-- Every word ends where the last of the nodes does. -/
def Ends (L : Language Mark) (ns : List Node) : Prop :=
  ∀ u ∈ L, ∃ n ∈ ns.getLast?, ∃ d ∈ u.getLast?, d.span.stop = n.span.stop

namespace Begins

theorem of_le (hKL : K ≤ L) (h : Begins L ns) : Begins K ns := fun u hu => h u (hKL hu)

theorem single (h : ∀ u ∈ L, Fills u n.span) : Begins L [n] := fun u hu => ⟨n, rfl, (h u hu).1⟩

theorem mul (h : Begins K ns) : Begins (K * L) (ns ++ ms) := by
  intro u hu
  obtain ⟨x, hx, y, -, rfl⟩ := Language.mem_mul.1 hu
  obtain ⟨n, hn, c, hc, hstart⟩ := h x hx
  refine ⟨n, ?_, c, ?_, hstart⟩
  · rw [List.head?_append, Option.mem_def.1 hn]
    rfl
  · rw [List.head?_append, Option.mem_def.1 hc]
    rfl

theorem list {α : Type} {separator : Symbol} {item : α → Language Mark} {node : α → Node}
    (h : ∀ a, ∀ u ∈ item a, Fills u (node a).span) (as : List α) :
    Begins (Placing.list separator item as) (as.map node) := by
  intro u hu
  obtain ⟨first, hfirst, last, -, hfills⟩ := fills_list h hu
  exact ⟨node first, List.head?_map (f := node) ▸ Option.mem_map_of_mem node hfirst, hfills.1⟩

end Begins

namespace Ends

theorem of_le (hKL : K ≤ L) (h : Ends L ns) : Ends K ns := fun u hu => h u (hKL hu)

theorem single (h : ∀ u ∈ L, Fills u n.span) : Ends L [n] := fun u hu => ⟨n, rfl, (h u hu).2⟩

theorem skip (h : Ends L ns) : Ends (K * L) ns := by
  intro u hu
  obtain ⟨x, -, y, hy, rfl⟩ := Language.mem_mul.1 hu
  obtain ⟨n, hn, d, hd, hstop⟩ := h y hy
  refine ⟨n, hn, d, ?_, hstop⟩
  rw [List.getLast?_append, Option.mem_def.1 hd]
  rfl

theorem mul (h : Ends L ms) : Ends (K * L) (ns ++ ms) := by
  intro u hu
  obtain ⟨n, hn, hstop⟩ := h.skip u hu
  refine ⟨n, ?_, hstop⟩
  rw [List.getLast?_append, Option.mem_def.1 hn]
  rfl

/-- Words end where a node does that they end with. -/
theorem last (hn : ns.getLast? = some n) (h : ∀ u ∈ L, Fills u n.span) : Ends (K * L) ns := by
  obtain ⟨ms, rfl⟩ := List.getLast?_eq_some_iff.1 hn
  exact mul (single h)

theorem list {α : Type} {separator : Symbol} {item : α → Language Mark} {node : α → Node}
    (h : ∀ a, ∀ u ∈ item a, Fills u (node a).span) (as : List α) :
    Ends (Placing.list separator item as) (as.map node) := by
  intro u hu
  obtain ⟨first, -, last, hlast, hfills⟩ := fills_list h hu
  exact ⟨node last, List.getLast?_map (f := node) ▸ Option.mem_map_of_mem node hlast, hfills.2⟩

theorem names (ns : List Name) : Ends (Placing.names ns) (ns.map .name) := list fills_name ns

theorem expressions (es : List Expression) :
    Ends (Placing.expressions es) (es.map .expression) := by
  rw [expressions_eq]
  exact list fills_expression es

end Ends

/-! ## Beginnings -/

theorem begins_statement (s : Statement) (h : (Node.statement s).beginsWithChild = true) :
    Begins (statement s) s.children := by
  cases s with
  | assign vs es span =>
    rw [statement, mul_assoc, targets_eq]
    exact .of_le (spanned_le _ _) (.mul (.list fills_target vs))
  | call c =>
    rw [statement]
    exact .single (fills_call c)
  | _ => cases h

theorem begins_expression (e : Expression) (h : (Node.expression e).beginsWithChild = true) :
    Begins (expression e) e.children := by
  cases e with
  | primary p =>
    rw [expression]
    exact .single (fills_primary p)
  | binary op left right span =>
    rw [expression, mul_assoc]
    exact .of_le (spanned_le _ _) (.mul (.single (fills_expression left)))
  | _ => cases h

theorem begins_primary (p : Primary) (h : (Node.primary p).beginsWithChild = true) :
    Begins (primary p) p.children := by
  cases p with
  | var v =>
    rw [primary]
    exact .single (fills_target v)
  | call c =>
    rw [primary]
    exact .single (fills_call c)
  | parenthesized => cases h

theorem begins_target (v : Variable) : Begins (target v) v.children := by
  cases v with
  | name n =>
    rw [target]
    exact .single (fills_name n)
  | index base key span =>
    rw [target]
    simp only [mul_assoc]
    exact .of_le (spanned_le _ _) (.mul (.single (fills_primary base)))
  | member base n span =>
    rw [target, mul_assoc]
    exact .of_le (spanned_le _ _) (.mul (.single (fills_primary base)))

theorem begins_call (c : Call) : Begins (call c) c.children := by
  cases c with
  | function callee args span =>
    rw [call]
    exact .of_le (spanned_le _ _) (.mul (.single (fills_primary callee)))
  | method receiver n args span =>
    rw [call]
    simp only [mul_assoc]
    exact .of_le (spanned_le _ _) (.mul (.single (fills_primary receiver)))

theorem begins_field (f : Field) (h : (Node.field f).beginsWithChild = true) :
    Begins (field f) f.children := by
  cases f with
  | keyed => cases h
  | named n value span =>
    rw [field, mul_assoc]
    exact .of_le (spanned_le _ _) (.mul (.single (fills_name n)))
  | positional value =>
    rw [field]
    exact .single (fills_expression value)

/-! ## Endings -/

theorem ends_statement (s : Statement) (h : (Node.statement s).endsWithChild = true) :
    Ends (statement s) s.children := by
  cases s with
  | assign vs es span =>
    rw [statement]
    exact .of_le (spanned_le _ _) (.mul (.expressions es))
  | localAssign ns es span =>
    rw [statement, Statement.children]
    refine .of_le (spanned_le _ _) ?_
    cases es with
    | nil =>
      rw [assigned, mul_one, List.map_nil, List.append_nil]
      exact .skip (.names ns)
    | cons e es =>
      rw [assigned, mul_assoc (symbol .assign), ← expressions, ← mul_assoc]
      exact .mul (.expressions (e :: es))
  | call c =>
    rw [statement]
    exact .single (fills_call c)
  | repeatLoop b e span =>
    rw [statement]
    exact .of_le (spanned_le _ _) (.last rfl (fills_expression e))
  | function f body span =>
    rw [statement]
    exact .of_le (spanned_le _ _) (.mul (.single (fills_functionBody body)))
  | localFunction n body span =>
    rw [statement]
    exact .of_le (spanned_le _ _) (.last rfl (fills_functionBody body))
  | jump n span =>
    rw [statement]
    exact .of_le (spanned_le _ _) (.last rfl (fills_name n))
  | returnValues es span =>
    cases es with
    | nil => cases h
    | cons e es =>
      rw [statement, values, ← expressions]
      exact .of_le (spanned_le _ _) (.skip (.expressions (e :: es)))
  | _ => cases h

theorem ends_expression (e : Expression) (h : (Node.expression e).endsWithChild = true) :
    Ends (expression e) e.children := by
  cases e with
  | function body span =>
    rw [expression]
    exact .of_le (spanned_le _ _) (.last rfl (fills_functionBody body))
  | primary p =>
    rw [expression]
    exact .single (fills_primary p)
  | binary op left right span =>
    rw [expression]
    exact .of_le (spanned_le _ _) (.last rfl (fills_expression right))
  | unary op operand span =>
    rw [expression]
    exact .of_le (spanned_le _ _) (.last rfl (fills_expression operand))
  | _ => cases h

theorem ends_primary (p : Primary) (h : (Node.primary p).endsWithChild = true) :
    Ends (primary p) p.children := by
  cases p with
  | var v =>
    rw [primary]
    exact .single (fills_target v)
  | call c =>
    rw [primary]
    exact .single (fills_call c)
  | parenthesized => cases h

theorem ends_target (v : Variable) (h : (Node.target v).endsWithChild = true) :
    Ends (target v) v.children := by
  cases v with
  | name n =>
    rw [target]
    exact .single (fills_name n)
  | index => cases h
  | member base n span =>
    rw [target]
    exact .of_le (spanned_le _ _) (.last rfl (fills_name n))

theorem ends_call (c : Call) : Ends (call c) c.children := by
  cases c with
  | function callee args span =>
    rw [call]
    exact .of_le (spanned_le _ _) (.last rfl (fills_arguments args))
  | method receiver n args span =>
    rw [call]
    exact .of_le (spanned_le _ _) (.last rfl (fills_arguments args))

theorem ends_field (f : Field) : Ends (field f) f.children := by
  cases f with
  | keyed key value span =>
    rw [field]
    exact .of_le (spanned_le _ _) (.last rfl (fills_expression value))
  | named n value span =>
    rw [field]
    exact .of_le (spanned_le _ _) (.last rfl (fills_expression value))
  | positional value =>
    rw [field]
    exact .single (fills_expression value)

/-! ## Ends of placed nodes -/

theorem Begins.start_eq {u : List Mark} (h : Begins L ns) (hu : u ∈ L) (hfills : Fills u span) :
    ∃ c ∈ ns.head?, c.span.start = span.start := by
  obtain ⟨n, hn, c, hc, hstart⟩ := h u hu
  obtain ⟨⟨c', hc', hstart'⟩, -⟩ := hfills
  cases hc.symm.trans hc'
  exact ⟨n, hn, hstart.symm.trans hstart'⟩

theorem Ends.stop_eq {u : List Mark} (h : Ends L ns) (hu : u ∈ L) (hfills : Fills u span) :
    ∃ c ∈ ns.getLast?, c.span.stop = span.stop := by
  obtain ⟨n, hn, d, hd, hstop⟩ := h u hu
  obtain ⟨-, d', hd', hstop'⟩ := hfills
  cases hd.symm.trans hd'
  exact ⟨n, hn, hstop.symm.trans hstop'⟩

/-- The span of a block with statements is made from those of its first and its last one. -/
theorem span_of_mem_block {p : Position} {b : Block} {u : List Mark} (hu : u ∈ block p b)
    (hne : b.statements ≠ []) :
    (∃ s ∈ b.statements.head?, s.span.start = b.span.start) ∧
      ∃ s ∈ b.statements.getLast?, s.span.stop = b.span.stop := by
  obtain ⟨ss, span⟩ := b
  rw [block] at hu
  obtain ⟨rfl, -⟩ := hu
  cases ss with
  | nil => exact absurd rfl hne
  | cons s ss =>
    obtain ⟨last, hlast⟩ : ∃ last, (s :: ss).getLast? = some last := ⟨_, List.getLast?_cons⟩
    rw [blockSpan_cons p hlast]
    exact ⟨⟨s, rfl, rfl⟩, last, hlast, rfl⟩

/-- A placed node without a token before its first child starts where the child does. -/
theorem Placed.start_eq (h : Placed source n) (hbegins : n.beginsWithChild = true) :
    ∃ c ∈ n.children.head?, c.span.start = n.span.start := by
  obtain ⟨p, u, q, hu, -⟩ := h
  cases n with
  | block b =>
    have hne : b.statements ≠ [] := by simpa [Node.beginsWithChild] using hbegins
    obtain ⟨s, hs, hstart⟩ := (span_of_mem_block hu hne).1
    refine ⟨.statement s, ?_, hstart⟩
    rw [Node.children, List.head?_map, hs]
    rfl
  | statement s => exact (begins_statement s hbegins).start_eq hu (fills_statement s u hu)
  | expression e => exact (begins_expression e hbegins).start_eq hu (fills_expression e u hu)
  | primary p => exact (begins_primary p hbegins).start_eq hu (fills_primary p u hu)
  | target v => exact (begins_target v).start_eq hu (fills_target v u hu)
  | call c => exact (begins_call c).start_eq hu (fills_call c u hu)
  | field f => exact (begins_field f hbegins).start_eq hu (fills_field f u hu)
  | arguments | functionBody | name => cases hbegins

/-- A placed node without a token behind its last child ends where the child does. -/
theorem Placed.stop_eq (h : Placed source n) (hends : n.endsWithChild = true) :
    ∃ c ∈ n.children.getLast?, c.span.stop = n.span.stop := by
  obtain ⟨p, u, q, hu, -⟩ := h
  cases n with
  | block b =>
    have hne : b.statements ≠ [] := by simpa [Node.endsWithChild] using hends
    obtain ⟨s, hs, hstop⟩ := (span_of_mem_block hu hne).2
    refine ⟨.statement s, ?_, hstop⟩
    rw [Node.children, List.getLast?_map, hs]
    rfl
  | statement s => exact (ends_statement s hends).stop_eq hu (fills_statement s u hu)
  | expression e => exact (ends_expression e hends).stop_eq hu (fills_expression e u hu)
  | primary p => exact (ends_primary p hends).stop_eq hu (fills_primary p u hu)
  | target v => exact (ends_target v hends).stop_eq hu (fills_target v u hu)
  | call c => exact (ends_call c).stop_eq hu (fills_call c u hu)
  | field f => exact (ends_field f).stop_eq hu (fills_field f u hu)
  | arguments | functionBody | name => cases hends

end Placing

end LuaSource
