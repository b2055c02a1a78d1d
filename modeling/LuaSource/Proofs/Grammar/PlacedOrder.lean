-- SUMMARY: The nodes of a tree come in the order of its word, and its names are the names in the word.
import LuaSource.Proofs.Grammar.PlacedNodes
import LuaSource.Proofs.Grammar.Relaxed
import LuaSource.Proofs.Tree.Visit

/-!
# Order of nodes

The marks of a source start one behind the other. Along a word of marks in which a tree is placed
the nodes of the tree start in order as well, where a node comes before its parts. Every mark of a
name is one of the names of the tree, in the same order.
-/

namespace LuaSource

/-- The name that a token is. -/
def Token.name? (t : Token) : Option Name :=
  if t.symbol = .name then some ⟨t.content, t.span⟩ else none

/-- Where a node starts. -/
def Node.start : Node → Position
  | .block b => b.span.start
  | .statement s => s.span.start
  | .expression e => e.span.start
  | .primary p => p.span.start
  | .target v => v.span.start
  | .call c => c.span.start
  | .arguments a => a.span.start
  | .field f => f.span.start
  | .functionBody f => f.span.start
  | .name n => n.span.start

namespace Placing

/-! ## Going on in a source -/

/-- The marks start one behind the other, not before `a`, and `b` is not before the end. -/
def Advances : Nat → List Mark → Nat → Prop
  | a, [], b => a ≤ b
  | a, c :: u, b =>
    a ≤ c.span.start.offset ∧ c.span.start.offset ≤ c.next.offset ∧ Advances c.next.offset u b

/-- The nodes start between `a` and `b`, and none of them before one that comes before it. -/
def Rises : Nat → List Node → Nat → Prop
  | a, [], b => a ≤ b
  | a, n :: ns, b => a ≤ n.start.offset ∧ Rises n.start.offset ns b

section

variable {a b c : Nat} {u v : List Mark} {ns ms : List Node} {m n : Node}

theorem advances_append : Advances a (u ++ v) c ↔ ∃ b, Advances a u b ∧ Advances b v c := by
  induction u generalizing a with
  | nil =>
    constructor
    · intro h
      exact ⟨a, Nat.le_refl a, h⟩
    · rintro ⟨b, hb, h⟩
      cases v with
      | nil => exact Nat.le_trans hb h
      | cons d v => exact ⟨Nat.le_trans hb h.1, h.2⟩
  | cons d u ih =>
    simp only [List.cons_append, Advances, ih, and_assoc, exists_and_left]

theorem Advances.le (h : Advances a u b) : a ≤ b := by
  induction u generalizing a with
  | nil => exact h
  | cons d u ih => exact Nat.le_trans (Nat.le_trans h.1 h.2.1) (ih h.2.2)

theorem Rises.mono (hab : a ≤ b) (h : Rises b ns c) : Rises a ns c := by
  cases ns with
  | nil => exact Nat.le_trans hab h
  | cons n ns => exact ⟨Nat.le_trans hab h.1, h.2⟩

theorem Rises.append (h : Rises a ns b) (h' : Rises b ms c) : Rises a (ns ++ ms) c := by
  induction ns generalizing a with
  | nil => exact h'.mono h
  | cons n ns ih => exact ⟨h.1, ih h.2⟩

/-- A node may start where the first of its parts does. -/
theorem Rises.cons_cons (hstart : m.start = n.start) (h : Rises a (n :: ns) b) :
    Rises a (m :: n :: ns) b := by
  refine ⟨hstart ▸ h.1, Nat.le_of_eq (congrArg _ hstart), h.2⟩

theorem Rises.pairwise (h : Rises a ns b) :
    ns.Pairwise (·.start.offset ≤ ·.start.offset) ∧ ∀ n ∈ ns, a ≤ n.start.offset := by
  induction ns generalizing a with
  | nil => exact ⟨.nil, nofun⟩
  | cons n ns ih =>
    obtain ⟨hpairwise, hle⟩ := ih h.2
    exact ⟨List.pairwise_cons.2 ⟨hle, hpairwise⟩,
      List.forall_mem_cons.2 ⟨h.1, fun m hm => Nat.le_trans h.1 (hle m hm)⟩⟩

end

/-! ## Words and nodes -/

/-- In words that start at `p` or behind it, the nodes come in order, and the names are those of the
nodes. -/
structure TellsFrom (p : Nat) (L : Language Mark) (ns : List Node) : Prop where
  names : ∀ u ∈ L, u.filterMap (·.toToken.name?) = ns.filterMap Node.name?
  rises : ∀ u ∈ L, ∀ q, Advances p u q → Rises p ns q

/-- The words tell of the nodes wherever they start. -/
structure Tells (L : Language Mark) (ns : List Node) : Prop where
  at_offset : ∀ p, TellsFrom p L ns

/-- The words have no names. -/
def Nameless (L : Language Mark) : Prop := ∀ u ∈ L, u.filterMap (·.toToken.name?) = []

variable {K L : Language Mark} {p : Nat} {ns ms : List Node} {n : Node} {s : Symbol} {span : Span}

theorem TellsFrom.of_le (hKL : K ≤ L) (h : TellsFrom p L ns) : TellsFrom p K ns :=
  ⟨fun u hu => h.names u (hKL hu), fun u hu => h.rises u (hKL hu)⟩

/-! ## Words without names -/

namespace Nameless

theorem one : Nameless 1 := by
  intro u hu
  obtain rfl := (Language.mem_one u).1 hu
  rfl

theorem marked_one : Nameless (marked 1) := fun u hu => one u (marked_one_le hu)

theorem of_letters {L : Language Letter} (hL : ∀ u ∈ L, ∀ c ∈ u, c.symbol ≠ .name) :
    Nameless (marked L) := by
  intro u hu
  refine List.filterMap_eq_nil_iff.2 fun c hc => ?_
  have hsymbol : c.toToken.symbol ≠ .name := hL _ hu _ (List.mem_map_of_mem hc)
  exact if_neg hsymbol

theorem letter {p : Letter → Prop} (hp : ∀ c, p c → c.symbol ≠ .name) :
    Nameless (marked (Spelling.letter p)) := by
  refine of_letters ?_
  rintro u ⟨c, hc, rfl⟩ d hd
  rw [List.mem_singleton.1 hd]
  exact hp c hc

theorem symbol (hs : s ≠ .name) : Nameless (symbol s) := letter fun _ hc => hc ▸ hs

theorem marked_add {L M : Language Letter} (hL : Nameless (marked L)) (hM : Nameless (marked M)) :
    Nameless (marked (L + M)) := fun u hu => ((Language.mem_add L M _).1 hu).elim (hL u) (hM u)

theorem semicolons : Nameless (marked Spelling.semicolons) := by
  refine of_letters fun u hu c hc => ?_
  rw [Spelling.mem_semicolons_iff.1 hu c hc]
  nofun

theorem separation (before : Option Statement) (s : Statement) :
    Nameless (marked (Spelling.separation before s)) := by
  unfold Spelling.separation
  split
  · exact symbol nofun
  · exact marked_one

theorem trail (s : Statement) : Nameless (marked (Spelling.trail s)) := by
  unfold Spelling.trail
  split
  · exact marked_add marked_one (symbol nofun)
  · exact semicolons

theorem fieldSeparator : Nameless (marked Spelling.fieldSeparator) :=
  marked_add (symbol nofun) (symbol nofun)

end Nameless

/-! ## Rules -/

namespace Tells

theorem of_le (hKL : K ≤ L) (h : Tells L ns) : Tells K ns where
  at_offset p := (h.at_offset p).of_le hKL

theorem nameless (h : Nameless L) : Tells L [] where
  at_offset _ := ⟨h, fun _ _ _ hq => hq.le⟩

theorem one : Tells 1 [] := nameless .one

theorem zero : Tells 0 ns where
  at_offset _ := ⟨fun u hu => absurd hu (Language.notMem_zero u),
    fun u hu => absurd hu (Language.notMem_zero u)⟩

theorem add (hK : Tells K ns) (hL : Tells L ns) : Tells (K + L) ns where
  at_offset p := by
    have hmem := fun u => (Language.mem_add K L u).1
    exact ⟨fun u hu => (hmem u hu).elim ((hK.at_offset p).names u) ((hL.at_offset p).names u),
      fun u hu => (hmem u hu).elim ((hK.at_offset p).rises u) ((hL.at_offset p).rises u)⟩

theorem mul (hK : Tells K ns) (hL : Tells L ms) : Tells (K * L) (ns ++ ms) where
  at_offset p := by
    constructor
    · intro u hu
      obtain ⟨x, hx, y, hy, rfl⟩ := Language.mem_mul.1 hu
      rw [List.filterMap_append, List.filterMap_append, (hK.at_offset p).names x hx,
        (hL.at_offset p).names y hy]
    · intro u hu q hq
      obtain ⟨x, hx, y, hy, rfl⟩ := Language.mem_mul.1 hu
      obtain ⟨r, hxr, hyq⟩ := advances_append.1 hq
      exact ((hK.at_offset p).rises x hx r hxr).append ((hL.at_offset r).rises y hy q hyq)

/-- Words without names may stand before what tells of the nodes. -/
theorem skip (hK : Nameless K) (hL : Tells L ns) : Tells (K * L) ns := (nameless hK).mul hL

/-- Words without names may stand behind what tells of the nodes. -/
theorem stop (hL : Nameless L) (hK : Tells K ns) : Tells (K * L) ns := by
  rw [← List.append_nil ns]
  exact hK.mul (nameless hL)

theorem keyword (hs : s ≠ .name) (hL : Tells L ns) : Tells (symbol s * L) ns :=
  skip (.symbol hs) hL

theorem closing (hs : s ≠ .name) (hK : Tells K ns) : Tells (K * symbol s) ns :=
  stop (.symbol hs) hK

/-- Behind a keyword, what is placed where the next token starts. -/
theorem behind {L : Mark → Language Mark} (hs : s ≠ .name)
    (h : ∀ c : Mark, TellsFrom c.next.offset (L c) ns) : Tells (behind s L) ns where
  at_offset p := by
    constructor
    · rintro u ⟨c, v, rfl, hv, rfl⟩
      rw [List.filterMap_cons, Token.name?, if_neg hs]
      exact (h c).names v hv
    · rintro u ⟨c, v, -, hv, rfl⟩ q ⟨hstart, hnext, hq⟩
      exact ((h c).rises v hv q hq).mono (Nat.le_trans hstart hnext)

/-- A node that starts where its words do comes before its parts. -/
theorem node (hfills : ∀ u ∈ L, ∃ c ∈ u.head?, c.span.start = n.start) (hn : n.name? = none)
    (h : Tells L ns) : Tells L (n :: ns) where
  at_offset p := by
    constructor
    · intro u hu
      rw [List.filterMap_cons_none hn]
      exact (h.at_offset p).names u hu
    · intro u hu q hq
      obtain ⟨c, hc, hstart⟩ := hfills u hu
      obtain ⟨v, rfl⟩ := List.head?_eq_some_iff.1 hc
      refine ⟨hstart ▸ hq.1, ?_⟩
      -- The parts are looked at from the start of the node on, which may lie behind `p`.
      exact (h.at_offset n.start.offset).rises _ hu q ⟨Nat.le_of_eq (congrArg _ hstart.symm), hq.2⟩

theorem spanned (hstart : n.start = span.start) (hn : n.name? = none) (h : Tells L ns) :
    Tells (spanned span L) (n :: ns) :=
  node (fun _ hu => hstart ▸ hu.2.1) hn (h.of_le (spanned_le span L))

/-! ## Names -/

/-- The token of a name is the name. -/
theorem name (n : Name) : Tells (name n) [.name n] where
  at_offset p := by
    have hmark : ∀ u ∈ Placing.name n, ∃ c : Mark, u = [c] ∧ c.toToken.name? = some n ∧
        c.span.start = n.span.start := by
      rintro u ⟨⟨d, ⟨hsymbol, hcontent⟩, hu⟩, ⟨c, hc, hstart⟩, c', hc', hstop⟩
      obtain ⟨c, rfl, rfl⟩ := List.map_eq_singleton_iff.1 hu
      cases hc
      cases hc'
      refine ⟨c, rfl, ?_, hstart⟩
      have hstop' : c.span.stop = n.span.stop := hstop
      have hspan : c.span = n.span := by
        rw [show c.span = ⟨c.span.start, c.span.stop⟩ from rfl, hstart, hstop']
      have hname : c.toToken.symbol = .name := hsymbol
      have htext : c.toToken.content = n.text := hcontent
      rw [Token.name?, if_pos hname, htext, hspan]
    constructor
    · intro u hu
      obtain ⟨c, rfl, hname, -⟩ := hmark u hu
      exact List.filterMap_cons_some hname
    · intro u hu q hq
      obtain ⟨c, rfl, -, hstart⟩ := hmark u hu
      obtain ⟨hp, hnext, hq⟩ := hq
      rw [hstart] at hp hnext
      exact ⟨hp, Nat.le_trans hnext hq⟩

theorem series {α : Type} {item : α → Language Mark} {nodes : α → List Node} (hs : s ≠ .name)
    (h : ∀ a, Tells (item a) (nodes a)) (as : List α) :
    Tells (Placing.series s item as) (as.flatMap nodes) := by
  induction as with
  | nil => exact one
  | cons a as ih =>
    rw [series_cons, mul_assoc, List.flatMap_cons]
    exact keyword hs ((h a).mul ih)

theorem list {α : Type} {item : α → Language Mark} {nodes : α → List Node} (hs : s ≠ .name)
    (h : ∀ a, Tells (item a) (nodes a)) (as : List α) :
    Tells (Placing.list s item as) (as.flatMap nodes) := by
  cases as with
  | nil => exact zero
  | cons a as => exact (h a).mul (series hs h as)

theorem names_append (ns : List Name) (m : Name) :
    Nodes.names (ns ++ [m]) = Nodes.names ns ++ [.name m] := List.map_append

theorem names (ns : List Name) : Tells (Placing.names ns) (Nodes.names ns) := by
  rw [Nodes.names, List.map_eq_flatMap]
  exact list (show Symbol.comma ≠ .name by decide) name ns

theorem path (ns : List Name) : Tells (Placing.path ns) (Nodes.names ns) := by
  rw [Nodes.names, List.map_eq_flatMap]
  exact list (show Symbol.dot ≠ .name by decide) name ns

theorem functionName (f : FunctionName) : Tells (functionName f) (Nodes.names f.path) := by
  obtain ⟨ns, isMethod, span⟩ := f
  cases isMethod with
  | false =>
    rw [functionName_function]
    exact (path ns).of_le (spanned_le span _)
  | true =>
    rcases List.eq_nil_or_concat ns with rfl | ⟨ns, method, rfl⟩
    · exact zero.of_le (spanned_le span 0)
    · rw [List.concat_eq_append, functionName_method, mul_assoc]
      refine of_le (spanned_le span _) ?_
      dsimp only
      rw [names_append]
      exact (path ns).mul (keyword nofun (name method))

theorem beforeParameter (ns : List Name) : Tells (beforeParameter ns) (Nodes.names ns) := by
  induction ns with
  | nil => exact one
  | cons n ns ih =>
    have hname : Tells (Placing.name n * symbol .comma) [.name n] := closing nofun (name n)
    exact hname.mul ih

theorem parameters (ns : List Name) (hasVarargs : Bool) :
    Tells (parameters ns hasVarargs) (Nodes.names ns) := by
  unfold Placing.parameters
  split
  · exact stop (.symbol nofun) (beforeParameter ns)
  · rcases List.eq_nil_or_concat ns with rfl | ⟨ns, n, rfl⟩
    · exact one
    · rw [List.concat_eq_append, List.getLast?_concat, List.dropLast_concat, names_append]
      exact (beforeParameter ns).mul (name n)

end Tells

/-! ## Blocks -/

/-- A block starts where its first statement does or, if it has none, where it is looked for. -/
theorem tellsFrom_block {start : Position} {ss : List Statement} {span : Span}
    (h : Tells (marked Spelling.semicolons * statements none ss) (Nodes.statements ss)) :
    TellsFrom start.offset (block start ⟨ss, span⟩) (Nodes.block ⟨ss, span⟩) := by
  rw [block, Nodes.block]
  obtain ⟨hnames, hrises⟩ := h.at_offset start.offset
  refine ⟨fun u hu => hnames u hu.2, ?_⟩
  rintro u ⟨rfl, hu⟩ q hq
  have hparts := hrises u hu q hq
  cases ss with
  | nil => exact ⟨Nat.le_refl _, hq.le⟩
  | cons st sts =>
    obtain ⟨ns, hns⟩ : ∃ ns, Nodes.statement st = .statement st :: ns := by
      cases st <;> exact ⟨_, by rw [Nodes.statement]⟩
    obtain ⟨last, hlast⟩ : ∃ last, (st :: sts).getLast? = some last :=
      ⟨_, List.getLast?_eq_some_getLast (List.cons_ne_nil _ _)⟩
    rw [Nodes.statements, hns, List.cons_append] at hparts ⊢
    refine hparts.cons_cons ?_
    rw [Node.start, Node.start, Grammar.blockSpan, hlast]
    rfl

/-! ## Nodes of a tree -/

mutual

theorem tells_block (start : Position) (b : Block) :
    TellsFrom start.offset (block start b) (Nodes.block b) :=
  match b with
  | ⟨ss, _⟩ => tellsFrom_block (.skip .semicolons (tells_statements none ss))

theorem tells_statements (before : Option Statement) (ss : List Statement) :
    Tells (statements before ss) (Nodes.statements ss) :=
  match ss with
  | [] => by
    rw [statements]
    exact .one
  | s :: ss => by
    rw [statements, Nodes.statements]
    simp only [mul_assoc]
    exact .skip (.separation before s)
      (.mul (tells_statement s) (.skip (.trail s) (tells_statements (some s) ss)))

theorem tells_statement (s : Statement) : Tells (statement s) (Nodes.statement s) :=
  match s with
  | .assign vs es _ => by
    rw [statement, Nodes.statement]
    simp only [mul_assoc]
    exact .spanned rfl rfl (.mul (tells_targets vs) (.keyword nofun (tells_expressions es)))
  | .localAssign ns es _ => by
    rw [statement, Nodes.statement]
    simp only [mul_assoc]
    exact .spanned rfl rfl (.keyword nofun (.mul (.names ns) (tells_assigned es)))
  | .call c => by
    rw [statement, Nodes.statement]
    exact .node (fun u hu => (fills_call c u hu).1) rfl (tells_call c)
  | .doBlock b _ => by
    rw [statement, Nodes.statement]
    exact .spanned rfl rfl (.closing nofun (.behind nofun fun c => tells_block c.next b))
  | .whileLoop e b _ => by
    rw [statement, Nodes.statement]
    simp only [mul_assoc]
    exact .spanned rfl rfl (.keyword nofun (.mul (tells_expression e)
      (.closing nofun (.behind nofun fun c => tells_block c.next b))))
  | .repeatLoop b e _ => by
    rw [statement, Nodes.statement]
    simp only [mul_assoc]
    exact .spanned rfl rfl (.mul (.behind nofun fun c => tells_block c.next b)
      (.keyword nofun (tells_expression e)))
  | .conditional cs b _ => by
    rw [statement, Nodes.statement]
    exact .spanned rfl rfl (.closing nofun (.mul (tells_clauses cs) (tells_otherwise b)))
  | .numericFor n start limit e b _ => by
    rw [statement, Nodes.statement]
    simp only [mul_assoc]
    refine .spanned rfl rfl (.keyword nofun (.mul (.name n) (.keyword nofun ?_)))
    exact .mul (tells_expression start) (.keyword nofun (.mul (tells_expression limit)
      (.mul (tells_step e) (.closing nofun (.behind nofun fun c => tells_block c.next b)))))
  | .genericFor ns es b _ => by
    rw [statement, Nodes.statement]
    simp only [mul_assoc]
    exact .spanned rfl rfl (.keyword nofun (.mul (.names ns) (.keyword nofun
      (.mul (tells_expressions es) (.closing nofun (.behind nofun fun c => tells_block c.next b))))))
  | .function f body _ => by
    rw [statement, Nodes.statement]
    simp only [mul_assoc]
    exact .spanned rfl rfl (.keyword nofun (.mul (.functionName f) (tells_functionBody body)))
  | .localFunction n body _ => by
    rw [statement, Nodes.statement]
    simp only [mul_assoc]
    exact .spanned rfl rfl (.keyword nofun (.keyword nofun (.mul (.name n)
      (tells_functionBody body))))
  | .label n _ => by
    rw [statement, Nodes.statement]
    simp only [mul_assoc]
    exact .spanned rfl rfl (.keyword nofun (.closing nofun (.name n)))
  | .jump n _ => by
    rw [statement, Nodes.statement]
    exact .spanned rfl rfl (.keyword nofun (.name n))
  | .returnValues es _ => by
    rw [statement, Nodes.statement]
    exact .spanned rfl rfl (.keyword nofun (tells_values es))
  | .breakLoop _ => by
    rw [statement, Nodes.statement]
    exact .spanned rfl rfl (.nameless (.symbol nofun))

theorem tells_assigned (es : List Expression) : Tells (assigned es) (Nodes.expressions es) :=
  match es with
  | [] => by
    rw [assigned]
    exact .one
  | e :: es => by
    rw [assigned, Nodes.expressions, mul_assoc]
    exact .keyword nofun (.mul (tells_expression e) (tells_moreExpressions es))

theorem tells_step (e : Option Expression) : Tells (step e) (Nodes.step e) :=
  match e with
  | none => by
    rw [step]
    exact .one
  | some e => by
    rw [step, Nodes.step]
    exact .keyword nofun (tells_expression e)

theorem tells_otherwise (b : Option Block) : Tells (otherwise b) (Nodes.otherwise b) :=
  match b with
  | none => by
    rw [otherwise]
    exact .one
  | some b => by
    rw [otherwise, Nodes.otherwise]
    exact .behind nofun fun c => tells_block c.next b

theorem tells_clauses (cs : List Clause) : Tells (clauses cs) (Nodes.clauses cs) :=
  match cs with
  | [] => by
    rw [clauses]
    exact .zero
  | d :: ds => by
    rw [clauses, Nodes.clauses]
    exact .mul (.behind nofun fun c => (tells_clause c.span d).at_offset _) (tells_moreClauses ds)

theorem tells_moreClauses (cs : List Clause) : Tells (moreClauses cs) (Nodes.clauses cs) :=
  match cs with
  | [] => by
    rw [moreClauses]
    exact .one
  | d :: ds => by
    rw [moreClauses, Nodes.clauses]
    exact .mul (.behind nofun fun c => (tells_clause c.span d).at_offset _) (tells_moreClauses ds)

theorem tells_clause (keyword : Span) (d : Clause) : Tells (clause keyword d) (Nodes.clause d) :=
  match d with
  | ⟨e, b, _⟩ => by
    rw [clause, Nodes.clause]
    exact .mul (tells_expression e) (.behind nofun fun c => (tells_block c.next b).of_le
      (provided_le _ _))

theorem tells_functionBody (f : FunctionBody) : Tells (functionBody f) (Nodes.functionBody f) :=
  match f with
  | ⟨ns, hasVarargs, b, _⟩ => by
    rw [functionBody, Nodes.functionBody]
    simp only [mul_assoc]
    exact .spanned rfl rfl (.keyword nofun (.mul (.parameters ns hasVarargs)
      (.closing nofun (.behind nofun fun c => tells_block c.next b))))

theorem tells_expression (e : Expression) : Tells (expression e) (Nodes.expression e) :=
  match e with
  | .nil _ | .varargs _ => by
    rw [expression, Nodes.expression]
    exact .spanned rfl rfl (.nameless (.symbol nofun))
  | .boolean value _ => by
    rw [expression, Nodes.expression]
    exact .spanned rfl rfl (.nameless (.symbol (by cases value <;> nofun)))
  | .number _ _ => by
    rw [expression, Nodes.expression]
    exact .spanned rfl rfl (.nameless (.letter fun _ hc => by rw [hc.1]; nofun))
  | .string _ _ => by
    rw [expression, Nodes.expression]
    exact .spanned rfl rfl (.nameless (.letter fun _ hc => by rw [hc.1]; nofun))
  | .function body _ => by
    rw [expression, Nodes.expression]
    exact .spanned rfl rfl (.keyword nofun (tells_functionBody body))
  | .primary p => by
    rw [expression, Nodes.expression]
    exact .node (fun u hu => (fills_primary p u hu).1) rfl (tells_primary p)
  | .table t => by
    rw [expression, Nodes.expression]
    exact .node (fun u hu => (fills_table t u hu).1) rfl (tells_table t)
  | .binary op left right _ => by
    rw [expression, Nodes.expression, mul_assoc]
    exact .spanned rfl rfl (.mul (tells_expression left)
      (.keyword (by cases op <;> nofun) (tells_expression right)))
  | .unary op operand _ => by
    rw [expression, Nodes.expression]
    exact .spanned rfl rfl (.keyword (by cases op <;> nofun) (tells_expression operand))

theorem tells_expressions (es : List Expression) : Tells (expressions es) (Nodes.expressions es) :=
  match es with
  | [] => by
    rw [expressions]
    exact .zero
  | e :: es => by
    rw [expressions, Nodes.expressions]
    exact .mul (tells_expression e) (tells_moreExpressions es)

theorem tells_values (es : List Expression) : Tells (values es) (Nodes.expressions es) :=
  match es with
  | [] => by
    rw [values]
    exact .one
  | e :: es => by
    rw [values, Nodes.expressions]
    exact .mul (tells_expression e) (tells_moreExpressions es)

theorem tells_moreExpressions (es : List Expression) :
    Tells (moreExpressions es) (Nodes.expressions es) :=
  match es with
  | [] => by
    rw [moreExpressions]
    exact .one
  | e :: es => by
    rw [moreExpressions, Nodes.expressions, mul_assoc]
    exact .keyword nofun (.mul (tells_expression e) (tells_moreExpressions es))

theorem tells_primary (p : Primary) : Tells (primary p) (Nodes.primary p) :=
  match p with
  | .var v => by
    rw [primary, Nodes.primary]
    exact .node (fun u hu => (fills_target v u hu).1) rfl (tells_target v)
  | .call c => by
    rw [primary, Nodes.primary]
    exact .node (fun u hu => (fills_call c u hu).1) rfl (tells_call c)
  | .parenthesized e _ => by
    rw [primary, Nodes.primary, mul_assoc]
    exact .spanned rfl rfl (.keyword nofun (.closing nofun (tells_expression e)))

theorem tells_target (v : Variable) : Tells (target v) (Nodes.target v) :=
  match v with
  | .name n => by
    rw [target, Nodes.target]
    exact .node (fun u hu => (fills_name n u hu).1) rfl (.name n)
  | .index base key _ => by
    rw [target, Nodes.target]
    simp only [mul_assoc]
    exact .spanned rfl rfl (.mul (tells_primary base)
      (.keyword nofun (.closing nofun (tells_expression key))))
  | .member base n _ => by
    rw [target, Nodes.target, mul_assoc]
    exact .spanned rfl rfl (.mul (tells_primary base) (.keyword nofun (.name n)))

theorem tells_targets (vs : List Variable) : Tells (targets vs) (Nodes.targets vs) :=
  match vs with
  | [] => by
    rw [targets]
    exact .zero
  | v :: vs => by
    rw [targets, Nodes.targets]
    exact .mul (tells_target v) (tells_moreTargets vs)

theorem tells_moreTargets (vs : List Variable) : Tells (moreTargets vs) (Nodes.targets vs) :=
  match vs with
  | [] => by
    rw [moreTargets]
    exact .one
  | v :: vs => by
    rw [moreTargets, Nodes.targets, mul_assoc]
    exact .keyword nofun (.mul (tells_target v) (tells_moreTargets vs))

theorem tells_call (c : Call) : Tells (call c) (Nodes.call c) :=
  match c with
  | .function callee args _ => by
    rw [call, Nodes.call]
    exact .spanned rfl rfl (.mul (tells_primary callee) (tells_arguments args))
  | .method receiver n args _ => by
    rw [call, Nodes.call]
    simp only [mul_assoc]
    exact .spanned rfl rfl (.mul (tells_primary receiver)
      (.keyword nofun (.mul (.name n) (tells_arguments args))))

theorem tells_arguments (a : Arguments) : Tells (arguments a) (Nodes.arguments a) :=
  match a with
  | .list es _ => by
    rw [arguments, Nodes.arguments, mul_assoc]
    exact .spanned rfl rfl (.skip (.letter fun _ hc => by rw [hc.1]; nofun)
      (.closing nofun (tells_values es)))
  | .table t => by
    rw [arguments, Nodes.arguments]
    exact .node (fun u hu => (fills_table t u hu).1) rfl (tells_table t)
  | .string _ _ => by
    rw [arguments, Nodes.arguments]
    exact .spanned rfl rfl (.nameless (.letter fun _ hc => by rw [hc.1]; nofun))

theorem tells_table (t : Table) : Tells (table t) (Nodes.table t) :=
  match t with
  | ⟨fs, _⟩ => by
    rw [table, Nodes.table, mul_assoc]
    exact .of_le (spanned_le _ _) (.keyword nofun (.closing nofun (tells_fields fs)))

theorem tells_fields (fs : List Field) : Tells (fields fs) (Nodes.fields fs) :=
  match fs with
  | [] => by
    rw [fields]
    exact .one
  | f :: fs => by
    rw [fields, Nodes.fields]
    refine .mul (tells_field f) (.add (.skip .fieldSeparator (tells_fields fs)) ?_)
    cases fs with
    | nil => exact .one
    | cons f fs => exact .zero

theorem tells_field (f : Field) : Tells (field f) (Nodes.field f) :=
  match f with
  | .keyed key value _ => by
    rw [field, Nodes.field]
    simp only [mul_assoc]
    exact .spanned rfl rfl (.keyword nofun (.mul (tells_expression key)
      (.keyword nofun (.keyword nofun (tells_expression value)))))
  | .named n value _ => by
    rw [field, Nodes.field, mul_assoc]
    exact .spanned rfl rfl (.mul (.name n) (.keyword nofun (tells_expression value)))
  | .positional value => by
    rw [field, Nodes.field]
    exact .node (fun u hu => (fills_expression value u hu).1) rfl (tells_expression value)

end

end Placing

end LuaSource
