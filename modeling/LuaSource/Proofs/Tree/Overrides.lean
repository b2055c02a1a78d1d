-- SUMMARY: What a visitor with some hooks of its own sees, told from what one with all of them sees.
import LuaSource.Proofs.Tree.Children
import Mathlib.Data.Fintype.Basic

/-!
# Overridden hooks

A visitor overrides some hooks and leaves the others as they are by default. Those go on to the
parts of their nodes and do not show. An overridden hook that does not go on hides what is inside of
its node, and nothing else. So what a visitor records can be told from the visits of one that
overrides all hooks and always goes on: the visits inside of a node that it does not go on from are
left out, and of the others those are kept that it records.
-/

namespace LuaSource

namespace Node

/-! ## Kinds of nodes -/

/-- There is one hook for each kind. -/
inductive Kind
  | block
  | statement
  | expression
  | primary
  | target
  | call
  | arguments
  | field
  | functionBody
  | name
deriving DecidableEq

instance : Fintype Kind where
  elems := {.block, .statement, .expression, .primary, .target, .call, .arguments, .field,
    .functionBody, .name}
  complete k := by cases k <;> decide

def kind : Node → Kind
  | block _ => .block
  | statement _ => .statement
  | expression _ => .expression
  | primary _ => .primary
  | target _ => .target
  | call _ => .call
  | arguments _ => .arguments
  | field _ => .field
  | functionBody _ => .functionBody
  | name _ => .name

/-- What holds of a node if it holds of its children holds of all nodes. -/
theorem induct {P : Node → Prop} (h : ∀ n, (∀ c ∈ n.children, P c) → P n) (n : Node) : P n := by
  induction hlength : (Nodes.of n).length using Nat.strongRecOn generalizing n with
  | ind k ih => exact h n fun c hc => ih _ (hlength ▸ Nodes.length_of_lt hc) c rfl

end Node

namespace Visitor

variable {σ : Type} {α : Type}

/-! ## Overriding hooks -/

/-- What is done at a node if the hooks for the kinds in `H` are overridden by `f`. -/
def override (H : Finset Node.Kind) (f : Hook Node σ) : Hook Node σ :=
  fun n => if n.kind ∈ H then f n else ({} : Visitor σ).hook n

/-- The hooks for the kinds in `H` are overridden by `f`, and all others are the default ones. -/
def overriding (H : Finset Node.Kind) (f : Hook Node σ) : Visitor σ where
  block b := override H f (.block b)
  statement s := override H f (.statement s)
  expression e := override H f (.expression e)
  primary p := override H f (.primary p)
  target v := override H f (.target v)
  call c := override H f (.call c)
  arguments a := override H f (.arguments a)
  field fl := override H f (.field fl)
  functionBody body := override H f (.functionBody body)
  name n := override H f (.name n) id

/-- By default a visitor goes on to the children of a node. -/
theorem hook_default_along (f : Node → σ → σ) (n : Node) (s : σ) :
    ({} : Visitor σ).hook n (along f n.children) s = along f n.children s := by
  cases n <;> rfl

theorem visit_overriding (H : Finset Node.Kind) (f : Hook Node σ) (n : Node) (s : σ) :
    (overriding H f).visit n s =
      if n.kind ∈ H then f n (along (overriding H f).visit n.children) s
      else along (overriding H f).visit n.children s := by
  have hhook : (overriding H f).visit n s =
      override H f n (along (overriding H f).visit n.children) s := by
    rw [visit_eq]
    cases n <;> rfl
  rw [hhook, override]
  split
  · rfl
  · exact hook_default_along _ n s

/-- Along nodes that each put something out, all of it is put out in their order. -/
theorem along_eq_flatMap {f : Node → σ → σ} {g : Node → List α} {ns : List Node}
    (state : List α → σ) (h : ∀ n ∈ ns, ∀ out, f n (state out) = state (out ++ g n))
    (out : List α) : along f ns (state out) = state (out ++ ns.flatMap g) := by
  induction ns generalizing out with
  | nil => rw [List.flatMap_nil, List.append_nil, along, List.foldl_nil]
  | cons n ns ih =>
    rw [along_cons, h n List.mem_cons_self, ih fun m hm => h m (List.mem_cons_of_mem n hm),
      List.flatMap_cons, List.append_assoc]

/-! ## All visits -/

/-- A call of a hook: the node that the hook is given, and the number of calls that this one is
made inside of. -/
structure Visit where
  depth : Nat
  node : Node

/-- Records every call of a hook and always goes on. The state is the number of calls that have not
ended, and the calls so far. -/
def tracer : Visitor (Nat × List Visit) :=
  overriding Finset.univ fun n walk s => (s.1, (walk (s.1 + 1, s.2 ++ [⟨s.1, n⟩])).2)

/-- All visits at a node and inside of it, inside of `depth` others. -/
def trace (depth : Nat) (n : Node) : List Visit := (tracer.visit n (depth, [])).2

theorem visit_tracer (n : Node) (depth : Nat) (visits : List Visit) :
    tracer.visit n (depth, visits) = (depth, visits ++ trace depth n) := by
  induction n using Node.induct generalizing depth visits with
  | h n ih =>
    have hvisit : ∀ visits, tracer.visit n (depth, visits) =
        (depth, visits ++ [⟨depth, n⟩] ++ n.children.flatMap (trace (depth + 1))) := by
      intro visits
      rw [tracer, visit_overriding, if_pos (Finset.mem_univ _), ← tracer,
        along_eq_flatMap (Prod.mk (depth + 1)) fun c hc => ih c hc (depth + 1)]
    rw [hvisit, trace, hvisit, List.nil_append, List.append_assoc]

theorem trace_eq (depth : Nat) (n : Node) :
    trace depth n = ⟨depth, n⟩ :: n.children.flatMap (trace (depth + 1)) := by
  rw [trace, tracer, visit_overriding, if_pos (Finset.mem_univ _), ← tracer,
    along_eq_flatMap (Prod.mk (depth + 1)) fun c _ => visit_tracer c (depth + 1)]
  rfl

theorem le_depth_of_mem_trace (n : Node) (depth : Nat) : ∀ v ∈ trace depth n, depth ≤ v.depth := by
  induction n using Node.induct generalizing depth with
  | h n ih =>
    rw [trace_eq]
    refine List.forall_mem_cons.2 ⟨Nat.le_refl depth, fun v hv => ?_⟩
    obtain ⟨c, hc, hv⟩ := List.mem_flatMap.1 hv
    exact Nat.le_of_succ_le (ih c hc (depth + 1) v hv)

/-- Every node of a tree is visited once, in the order of the nodes. -/
theorem map_node_trace (n : Node) (depth : Nat) : (trace depth n).map Visit.node = Nodes.of n := by
  induction n using Node.induct generalizing depth with
  | h n ih =>
    rw [trace_eq, Nodes.of_eq, List.map_cons, List.map_flatMap]
    exact congrArg _ (List.flatMap_congr fun c hc => ih c hc (depth + 1))

/-! ## Some of the visits -/

/-- Records the nodes of the kinds in `R`, and does not go on from those of the kinds in `S`. All
hooks for other kinds are the default ones. -/
def recorder (R S : Finset Node.Kind) : Visitor (List Node) :=
  overriding (R ∪ S) fun n walk seen =>
    let seen := if n.kind ∈ R then seen ++ [n] else seen
    if n.kind ∈ S then seen else walk seen

/-- Leave out the visits that are inside of one of a node of a kind in `S`. They come right behind
it, and are inside of more visits than it is. -/
def prune (S : Finset Node.Kind) : List Visit → List Visit
  | [] => []
  | v :: vs => v :: prune S (if v.node.kind ∈ S then vs.dropWhile (v.depth < ·.depth) else vs)
termination_by visits => visits.length
decreasing_by
  split
  · exact Nat.lt_succ_of_le (List.dropWhile_sublist _).length_le
  · exact Nat.lt_succ_self _

variable {R S : Finset Node.Kind}

def recorded (R S : Finset Node.Kind) (n : Node) : List Node := (recorder R S).visit n []

theorem visit_recorder_of_mem {n : Node} (hS : n.kind ∈ S) (seen : List Node) :
    (recorder R S).visit n seen = seen ++ if n.kind ∈ R then [n] else [] := by
  rw [recorder, visit_overriding, if_pos (Finset.mem_union_right R hS), if_pos hS]
  split <;> simp

theorem visit_recorder_of_notMem {n : Node} (hS : n.kind ∉ S) (seen : List Node) :
    (recorder R S).visit n seen =
      along (recorder R S).visit n.children (seen ++ if n.kind ∈ R then [n] else []) := by
  rw [recorder, visit_overriding, ← recorder]
  by_cases hR : n.kind ∈ R <;> simp [hR, hS]

theorem visit_recorder (n : Node) (seen : List Node) :
    (recorder R S).visit n seen = seen ++ recorded R S n := by
  induction n using Node.induct generalizing seen with
  | h n ih =>
    by_cases hS : n.kind ∈ S
    · rw [recorded, visit_recorder_of_mem hS, visit_recorder_of_mem hS, List.nil_append]
    · have halong : ∀ seen, along (recorder R S).visit n.children seen =
          seen ++ n.children.flatMap (recorded R S) := along_eq_flatMap id ih
      rw [recorded, visit_recorder_of_notMem hS, visit_recorder_of_notMem hS, halong, halong,
        List.nil_append, List.append_assoc]

theorem recorded_eq (n : Node) :
    recorded R S n = (if n.kind ∈ R then [n] else []) ++
      if n.kind ∈ S then [] else n.children.flatMap (recorded R S) := by
  by_cases hS : n.kind ∈ S
  · rw [recorded, visit_recorder_of_mem hS, if_pos hS, List.nil_append, List.append_nil]
  · rw [recorded, visit_recorder_of_notMem hS, if_neg hS, List.nil_append]
    exact along_eq_flatMap id (fun c _ seen => visit_recorder c seen) _

/-- The nodes of the kinds in `R` that are left if some visits are pruned. -/
def pruned (R S : Finset Node.Kind) (visits : List Visit) : List Node :=
  ((prune S visits).map Visit.node).filter (·.kind ∈ R)

theorem pruned_cons (v : Visit) (vs : List Visit) :
    pruned R S (v :: vs) = (if v.node.kind ∈ R then [v.node] else []) ++
      pruned R S (if v.node.kind ∈ S then vs.dropWhile (v.depth < ·.depth) else vs) := by
  rw [pruned, prune, List.map_cons, List.filter_cons, ← pruned]
  by_cases hR : v.node.kind ∈ R <;> simp [hR]

/-! ## Pruned traces -/

/-- If there are more visits, the next one is inside of `depth` others at most. -/
def ComesBack (depth : Nat) (vs : List Visit) : Prop := ∀ v ∈ vs.head?, v.depth ≤ depth

theorem ComesBack.flatMap_trace_append {ns : List Node} {depth : Nat} {vs : List Visit}
    (h : ComesBack depth vs) : ComesBack depth (ns.flatMap (trace depth) ++ vs) := by
  cases ns with
  | nil => exact h
  | cons n ns =>
    rw [List.flatMap_cons, trace_eq]
    rintro v ⟨⟩
    exact Nat.le_refl depth

/-- The visits inside of one are all of those up to where the visits come back from it. -/
theorem ComesBack.dropWhile_append {ns : List Node} {depth : Nat} {vs : List Visit}
    (h : ComesBack depth vs) :
    (ns.flatMap (trace (depth + 1)) ++ vs).dropWhile (depth < ·.depth) = vs := by
  have hinside : ∀ v ∈ ns.flatMap (trace (depth + 1)), decide (depth < v.depth) = true := by
    intro v hv
    obtain ⟨n, -, hv⟩ := List.mem_flatMap.1 hv
    exact decide_eq_true (le_depth_of_mem_trace n (depth + 1) v hv)
  rw [List.dropWhile_append_of_pos hinside]
  cases vs with
  | nil => rfl
  | cons v vs => exact List.dropWhile_cons_of_neg (by simpa using h v rfl)

theorem pruned_flatMap_trace_append {ns : List Node} {depth : Nat} {vs : List Visit}
    (hns : ∀ n ∈ ns, ∀ {vs}, ComesBack depth vs →
      pruned R S (trace depth n ++ vs) = recorded R S n ++ pruned R S vs)
    (hvs : ComesBack depth vs) :
    pruned R S (ns.flatMap (trace depth) ++ vs) =
      ns.flatMap (recorded R S) ++ pruned R S vs := by
  induction ns with
  | nil => rfl
  | cons n ns ih =>
    rw [List.flatMap_cons, List.append_assoc,
      hns n List.mem_cons_self hvs.flatMap_trace_append,
      ih fun m hm => hns m (List.mem_cons_of_mem n hm), List.flatMap_cons, List.append_assoc]

/-- The trace of a node is pruned to what is recorded of it, whatever comes behind. -/
theorem pruned_trace_append (n : Node) {depth : Nat} {vs : List Visit} (hvs : ComesBack depth vs) :
    pruned R S (trace depth n ++ vs) = recorded R S n ++ pruned R S vs := by
  induction n using Node.induct generalizing depth vs with
  | h n ih =>
    rw [trace_eq, List.cons_append, pruned_cons, recorded_eq, List.append_assoc]
    congr 1
    by_cases hS : n.kind ∈ S
    · rw [if_pos hS, if_pos hS, hvs.dropWhile_append, List.nil_append]
    · have hback : ComesBack (depth + 1) vs := fun v hv => Nat.le_succ_of_le (hvs v hv)
      rw [if_neg hS, if_neg hS]
      exact pruned_flatMap_trace_append (fun c hc => ih c hc) hback

/-- Hooks that are not overridden do not show, and the others hide what is inside of the nodes that
they do not go on from and nothing else. What a visitor records is the trace of one that records
every node and always goes on, less the visits inside of nodes of the kinds in `S`, and of the rest
the nodes of the kinds in `R`. In the trace there is every node of the tree once. -/
theorem recorder_prunes (R S : Finset Node.Kind) (n : Node) :
    (recorder R S).visit n [] =
        ((prune S (tracer.visit n (0, [])).2).map Visit.node).filter (·.kind ∈ R) ∧
      (tracer.visit n (0, [])).2.map Visit.node = Nodes.of n := by
  have hpruned : pruned R S (trace 0 n ++ []) = recorded R S n ++ pruned R S [] :=
    pruned_trace_append n nofun
  have hnil : pruned R S [] = [] := by
    rw [pruned, prune]
    rfl
  rw [List.append_nil, hnil, List.append_nil] at hpruned
  exact ⟨hpruned.symm, map_node_trace n 0⟩

end Visitor

end LuaSource
