-- SUMMARY: Along the word of a node, the spans of its children come in order inside its own.
import LuaSource.Proofs.Grammar.PlacedNodes
import LuaSource.Proofs.Text.PositionOrder
import LuaSource.Proofs.Text.TruePosition
import LuaSource.Proofs.Tree.Children

/-!
# Spans along a word

The marks of a source stand at true positions, one behind the other. Along a word of marks in which
a node is placed, so do the spans of its children, and the span of the node begins and ends with the
word. The children of a node are placed in the word as well, so that the same can be said of them.
-/

namespace LuaSource

/-- Both positions are true, and the second one does not come before the first. -/
structure Position.Leads (source : List Char) (p q : Position) : Prop where
  before : p.TrueIn source
  behind : q.TrueIn source
  le : p ≤ q

section

variable {source : List Char} {p q r : Position}

theorem Position.TrueIn.leads (h : p.TrueIn source) : p.Leads source p := ⟨h, h, le_refl p⟩

theorem Position.Leads.trans (h : p.Leads source q) (h' : q.Leads source r) : p.Leads source r :=
  ⟨h.before, h'.behind, h.le.trans h'.le⟩

end

namespace Placing

/-! ## Going on in a source -/

/-- The marks come one behind the other, none of them without a text and none before `a`. The next
token behind them starts at `b` or before. -/
def Marches (source : List Char) : Position → List Mark → Position → Prop
  | a, [], b => a.Leads source b
  | a, c :: u, b =>
    a.Leads source c.span.start ∧ c.span.start.Leads source c.span.stop ∧
      c.span.isEmpty = false ∧ c.span.stop.Leads source c.next ∧ Marches source c.next u b

variable {source : List Char} {a b c : Position} {u v : List Mark}

theorem Marches.leads (h : Marches source a u b) : a.Leads source b := by
  induction u generalizing a with
  | nil => exact h
  | cons d u ih =>
    obtain ⟨hstart, hstop, -, hnext, h⟩ := h
    exact hstart.trans (hstop.trans (hnext.trans (ih h)))

theorem marches_append :
    Marches source a (u ++ v) c ↔ ∃ b, Marches source a u b ∧ Marches source b v c := by
  induction u generalizing a with
  | nil =>
    constructor
    · intro h
      exact ⟨a, h.leads.before.leads, h⟩
    · rintro ⟨b, hb, h⟩
      cases v with
      | nil => exact hb.trans h
      | cons d v => exact ⟨hb.trans h.1, h.2⟩
  | cons d u ih => simp only [List.cons_append, Marches, ih, and_assoc, exists_and_left]

/-- The last mark of a word ends before what comes behind the word. -/
theorem Marches.last {d : Mark} (h : Marches source a u b) (hd : d ∈ u.getLast?) :
    a.Leads source d.span.stop ∧ d.span.stop.Leads source b := by
  induction u generalizing a with
  | nil => cases hd
  | cons e v ih =>
    obtain ⟨hstart, hstop, -, hnext, h⟩ := h
    cases v with
    | nil =>
      cases hd
      exact ⟨hstart.trans hstop, hnext.trans h⟩
    | cons e' v =>
      rw [List.getLast?_cons_cons] at hd
      obtain ⟨hle, hb⟩ := ih h hd
      exact ⟨hstart.trans (hstop.trans (hnext.trans hle)), hb⟩

/-- A word that takes up a span may be looked for where the span starts. -/
theorem Marches.from_start {span : Span} (h : Marches source a u b) (hu : Fills u span) :
    a.Leads source span.start ∧ Marches source span.start u b := by
  obtain ⟨⟨c, hc, hstart⟩, -⟩ := hu
  obtain ⟨v, rfl⟩ := List.head?_eq_some_iff.1 hc
  obtain ⟨hfirst, hword, h⟩ := h
  rw [← hstart]
  exact ⟨hfirst, hword.before.leads, hword, h⟩

/-- The span that a word takes up has true ends. -/
theorem Marches.leads_span {span : Span} (h : Marches source a u b) (hu : Fills u span) :
    a.Leads source span.start ∧ span.start.Leads source span.stop := by
  obtain ⟨hstart, hq⟩ := h.from_start hu
  obtain ⟨-, d, hd, hstop⟩ := hu
  exact ⟨hstart, hstop ▸ (hq.last hd).1⟩

/-- The span that a word takes up is not empty. -/
theorem Marches.isEmpty_eq_false {span : Span} (h : Marches source a u b) (hu : Fills u span) :
    span.isEmpty = false := by
  obtain ⟨⟨c, hc, hstart⟩, d, hd, hstop⟩ := hu
  obtain ⟨v, rfl⟩ := List.head?_eq_some_iff.1 hc
  have hle : c.span.stop.offset ≤ d.span.stop.offset := by
    obtain ⟨-, hword, -, hnext, h⟩ := h
    cases v with
    | nil =>
      cases hd
      exact Nat.le_refl _
    | cons e v => exact (hnext.trans (h.last (List.getLast?_cons_cons ▸ hd)).1).le.1
  obtain ⟨-, hword, hempty, -⟩ := h
  have hoffset := hword.le.1
  rw [Span.isEmpty_eq_false_iff] at hempty ⊢
  rw [← hstart, ← hstop]
  omega

/-! ## Rows of nodes -/

/-- The words of a node in front of which the next token starts at `p`. Only a block depends on
it. -/
def nodeAt (p : Position) : Node → Language Mark
  | .block b => block p b
  | n => node n

/-- Somewhere in the source, the node stands along a word. -/
def Placed (source : List Char) (n : Node) : Prop :=
  ∃ p v q, v ∈ nodeAt p n ∧ Marches source p v q

/-- The nodes are placed in the source, with spans one behind the other between `a` and `b`. -/
def Row (source : List Char) : Position → List Node → Position → Prop
  | a, [], b => a.Leads source b
  | a, n :: ns, b =>
    Placed source n ∧ a.Leads source n.span.start ∧ n.span.start.Leads source n.span.stop ∧
      Row source n.span.stop ns b

variable {n : Node} {ns ms : List Node}

theorem Row.leads (h : Row source a ns b) : a.Leads source b := by
  induction ns generalizing a with
  | nil => exact h
  | cons n ns ih => exact h.2.1.trans (h.2.2.1.trans (ih h.2.2.2))

theorem Row.mono_left (hab : a.Leads source b) (h : Row source b ns c) : Row source a ns c := by
  cases ns with
  | nil => exact hab.trans h
  | cons n ns => exact ⟨h.1, hab.trans h.2.1, h.2.2⟩

theorem Row.mono_right (h : Row source a ns b) (hbc : b.Leads source c) : Row source a ns c := by
  induction ns generalizing a with
  | nil => exact Position.Leads.trans h hbc
  | cons n ns ih => exact ⟨h.1, h.2.1, h.2.2.1, ih h.2.2.2⟩

theorem Row.append (h : Row source a ns b) (h' : Row source b ms c) :
    Row source a (ns ++ ms) c := by
  induction ns generalizing a with
  | nil => exact h'.mono_left h
  | cons n ns ih => exact ⟨h.1, h.2.1, h.2.2.1, ih h.2.2.2⟩

theorem Row.placed (h : Row source a ns b) : ∀ n ∈ ns, Placed source n := by
  induction ns generalizing a with
  | nil => exact nofun
  | cons n ns ih => exact List.forall_mem_cons.2 ⟨h.1, ih h.2.2.2⟩

/-- All spans of the row are inside its bounds, and none of them reaches into a later one. -/
theorem Row.inside (h : Row source a ns b) :
    (∀ n ∈ ns, a ≤ n.span.start ∧ n.span.stop ≤ b) ∧
      ns.Pairwise (·.span.stop ≤ ·.span.start) := by
  induction ns generalizing a with
  | nil => exact ⟨nofun, .nil⟩
  | cons n ns ih =>
    obtain ⟨-, hstart, hspan, h⟩ := h
    obtain ⟨hinside, hpairwise⟩ := ih h
    refine ⟨List.forall_mem_cons.2 ⟨⟨hstart.le, h.leads.le⟩, fun m hm => ?_⟩,
      List.pairwise_cons.2 ⟨fun m hm => (hinside m hm).1, hpairwise⟩⟩
    exact ⟨(hstart.trans hspan).le.trans (hinside m hm).1, (hinside m hm).2⟩

/-- A row starts with its first node and ends with its last one. -/
theorem Row.tight {m : Node} (h : Row source a (n :: ns) b) (hm : m ∈ (n :: ns).getLast?) :
    Row source n.span.start (n :: ns) m.span.stop ∧ m.span.stop.Leads source b := by
  induction ns generalizing n a with
  | nil =>
    cases hm
    obtain ⟨hplaced, -, hspan, h⟩ := h
    exact ⟨⟨hplaced, hspan.before.leads, hspan, hspan.behind.leads⟩, h⟩
  | cons n' ns ih =>
    rw [List.getLast?_cons_cons] at hm
    obtain ⟨hplaced, -, hspan, h⟩ := h
    obtain ⟨hrow, hstop⟩ := ih h hm
    exact ⟨⟨hplaced, hspan.before.leads, hspan, hrow.mono_left h.2.1⟩, hstop⟩

/-! ## Words and rows -/

/-- Along words that are looked for at `p`, the nodes stand in a row. -/
def LaysFrom (source : List Char) (p : Position) (L : Language Mark) (ns : List Node) : Prop :=
  ∀ u ∈ L, ∀ q, Marches source p u q → Row source p ns q

/-- Along the words, the nodes stand in a row. -/
def Lays (source : List Char) (L : Language Mark) (ns : List Node) : Prop :=
  ∀ p, LaysFrom source p L ns

/-- Along the words, the nodes stand in a row that ends where the last mark does. -/
def Fits (source : List Char) (L : Language Mark) (ns : List Node) : Prop :=
  ∀ u ∈ L, ∀ p q, Marches source p u q → ∃ d ∈ u.getLast?, Row source p ns d.span.stop

variable {K L : Language Mark} {s : Symbol} {span : Span}

namespace Lays

theorem of_le (hKL : K ≤ L) (h : Lays source L ns) : Lays source K ns :=
  fun p u hu => h p u (hKL hu)

theorem nothing (L : Language Mark) : Lays source L [] := fun _ _ _ _ h => h.leads

theorem zero : Lays source 0 ns := fun _ u hu => absurd hu (Language.notMem_zero u)

theorem add (hK : Lays source K ns) (hL : Lays source L ns) : Lays source (K + L) ns :=
  fun p u hu => ((Language.mem_add K L u).1 hu).elim (hK p u) (hL p u)

theorem mul (hK : Lays source K ns) (hL : Lays source L ms) : Lays source (K * L) (ns ++ ms) := by
  intro p u hu q hq
  obtain ⟨x, hx, y, hy, rfl⟩ := Language.mem_mul.1 hu
  obtain ⟨r, hxr, hyq⟩ := marches_append.1 hq
  exact (hK p x hx r hxr).append (hL r y hy q hyq)

/-- Words that no node belongs to may stand before the others. -/
theorem skip (K : Language Mark) (h : Lays source L ns) : Lays source (K * L) ns :=
  (nothing K).mul h

/-- Words that no node belongs to may stand behind the others. -/
theorem stop (L : Language Mark) (h : Lays source K ns) : Lays source (K * L) ns := by
  rw [← List.append_nil ns]
  exact h.mul (nothing L)

/-- Behind a keyword, what is placed where the next token starts. -/
theorem behind {L : Mark → Language Mark} (h : ∀ c : Mark, LaysFrom source c.next (L c) ns) :
    Lays source (behind s L) ns := by
  rintro p u ⟨c, v, -, hv, rfl⟩ q ⟨hstart, hstop, -, hnext, hq⟩
  exact (h c v hv q hq).mono_left (hstart.trans (hstop.trans hnext))

theorem series {α : Type} {item : α → Language Mark} {node : α → Node}
    (h : ∀ a, Lays source (item a) [node a]) (as : List α) :
    Lays source (Placing.series s item as) (as.map node) := by
  induction as with
  | nil => exact nothing _
  | cons a as ih =>
    rw [series_cons]
    exact (skip _ (h a)).mul ih

theorem list {α : Type} {item : α → Language Mark} {node : α → Node}
    (h : ∀ a, Lays source (item a) [node a]) (as : List α) :
    Lays source (Placing.list s item as) (as.map node) := by
  cases as with
  | nil => exact zero
  | cons a as => exact (h a).mul (series h as)

end Lays

namespace Fits

theorem lays (h : Fits source L ns) : Lays source L ns := by
  intro p u hu q hq
  obtain ⟨d, hd, hrow⟩ := h u hu p q hq
  exact hrow.mono_right (hq.last hd).2

theorem of_le (hKL : K ≤ L) (h : Fits source L ns) : Fits source K ns := fun u hu => h u (hKL hu)

theorem zero : Fits source 0 ns := fun u hu => absurd hu (Language.notMem_zero u)

/-- A word ends with its last mark. -/
theorem nothing (hL : [] ∉ L) : Fits source L [] := by
  intro u hu p q hq
  cases hlast : u.getLast? with
  | none =>
    rw [List.getLast?_eq_none_iff.1 hlast] at hu
    exact absurd hu hL
  | some d => exact ⟨d, rfl, (hq.last hlast).1⟩

theorem symbol : Fits source (symbol s) [] := nothing (nil_notMem_symbol s)

theorem mul (hK : Lays source K ns) (hL : Fits source L ms) : Fits source (K * L) (ns ++ ms) := by
  intro u hu p q hq
  obtain ⟨x, hx, y, hy, rfl⟩ := Language.mem_mul.1 hu
  obtain ⟨r, hxr, hyq⟩ := marches_append.1 hq
  obtain ⟨d, hd, hrow⟩ := hL y hy r q hyq
  refine ⟨d, ?_, (hK p x hx r hxr).append hrow⟩
  rw [List.getLast?_append, Option.mem_def.1 hd]
  rfl

theorem skip (K : Language Mark) (h : Fits source L ns) : Fits source (K * L) ns :=
  mul (.nothing K) h

theorem closing (h : Lays source K ns) : Fits source (K * Placing.symbol s) ns := by
  rw [← List.append_nil ns]
  exact mul h symbol

/-- The children of a node are in a row inside the span that its words take up. -/
theorem row (h : Fits source L ns) (hu : u ∈ L) (hfills : Fills u span)
    (hq : Marches source a u b) : Row source span.start ns span.stop := by
  obtain ⟨d, hd, hrow⟩ := h u hu span.start b (hq.from_start hfills).2
  obtain ⟨-, d', hd', hstop⟩ := hfills
  cases hd.symm.trans hd'
  rwa [hstop] at hrow

theorem series {α : Type} {item : α → Language Mark} {node : α → Node}
    (h : ∀ a, Fits source (item a) [node a]) {as : List α} (hne : as ≠ []) :
    Fits source (Placing.series s item as) (as.map node) := by
  induction as with
  | nil => exact absurd rfl hne
  | cons a as ih =>
    rw [series_cons]
    cases as with
    | nil =>
      rw [series_nil, mul_one]
      exact skip _ (h a)
    | cons a' as => exact mul (.skip _ (h a).lays) (ih (List.cons_ne_nil _ _))

theorem list {α : Type} {item : α → Language Mark} {node : α → Node}
    (h : ∀ a, Fits source (item a) [node a]) (as : List α) :
    Fits source (Placing.list s item as) (as.map node) := by
  cases as with
  | nil => exact zero
  | cons a as =>
    rw [Placing.list]
    cases as with
    | nil =>
      rw [series_nil, mul_one]
      exact h a
    | cons a' as => exact mul (h a).lays (series h (List.cons_ne_nil _ _))

/-- A node whose words take up its span stands along them. -/
theorem single (hnode : ∀ p, nodeAt p n = L) (hfills : ∀ u ∈ L, Fills u n.span) :
    Fits source L [n] := by
  intro u hu p q hq
  have hword := hfills u hu
  have hplaced : Placed source n := ⟨p, u, q, (hnode p).symm ▸ hu, hq⟩
  obtain ⟨hstart, hspan⟩ := hq.leads_span hword
  obtain ⟨-, d, hd, hstop⟩ := hword
  exact ⟨d, hd, hplaced, hstart, hspan, hstop ▸ hspan.behind.leads⟩

end Fits

/-! ## Words of single nodes -/

theorem fits_name (n : Name) : Fits source (name n) [.name n] :=
  .single (fun _ => rfl) (fills_name n)

theorem fits_statement (s : Statement) : Fits source (statement s) [.statement s] :=
  .single (fun _ => rfl) (fills_statement s)

theorem fits_expression (e : Expression) : Fits source (expression e) [.expression e] :=
  .single (fun _ => rfl) (fills_expression e)

theorem fits_primary (p : Primary) : Fits source (primary p) [.primary p] :=
  .single (fun _ => rfl) (fills_primary p)

theorem fits_target (v : Variable) : Fits source (target v) [.target v] :=
  .single (fun _ => rfl) (fills_target v)

theorem fits_call (c : Call) : Fits source (call c) [.call c] :=
  .single (fun _ => rfl) (fills_call c)

theorem fits_arguments (a : Arguments) : Fits source (arguments a) [.arguments a] :=
  .single (fun _ => rfl) (fills_arguments a)

theorem fits_functionBody (f : FunctionBody) : Fits source (functionBody f) [.functionBody f] :=
  .single (fun _ => rfl) (fills_functionBody f)

theorem fills_field (f : Field) : ∀ u ∈ field f, Fills u f.span := by
  intro u hu
  cases f with
  | positional value =>
    rw [field] at hu
    exact fills_expression value u hu
  | _ =>
    rw [field] at hu
    exact hu.2

theorem fits_field (f : Field) : Fits source (field f) [.field f] :=
  .single (fun _ => rfl) (fills_field f)

theorem lays_name (n : Name) : Lays source (name n) [.name n] := (fits_name n).lays

theorem lays_expression (e : Expression) : Lays source (expression e) [.expression e] :=
  (fits_expression e).lays

theorem fits_expressions (es : List Expression) :
    Fits source (expressions es) (es.map .expression) := by
  rw [expressions_eq]
  exact .list fits_expression es

theorem lays_values (es : List Expression) :
    Lays source (values es) (es.map .expression) := by
  cases es with
  | nil => exact .nothing _
  | cons e es =>
    have hfits : Fits source _ _ := fits_expressions (e :: es)
    rw [expressions] at hfits
    rw [values]
    exact hfits.lays

theorem lays_functionName (f : FunctionName) :
    Lays source (functionName f) (f.path.map .name) := by
  obtain ⟨ns, isMethod, span⟩ := f
  cases isMethod with
  | false =>
    rw [functionName_function]
    exact (Lays.list lays_name ns).of_le (spanned_le span _)
  | true =>
    rcases List.eq_nil_or_concat ns with rfl | ⟨ns, method, rfl⟩
    · exact Lays.zero.of_le (spanned_le span 0)
    · rw [List.concat_eq_append, functionName_method, mul_assoc, List.map_append]
      exact ((Lays.list lays_name ns).mul (.skip _ (lays_name method))).of_le (spanned_le span _)

theorem lays_beforeParameter (ns : List Name) :
    Lays source (beforeParameter ns) (ns.map .name) := by
  induction ns with
  | nil => exact .nothing _
  | cons n ns ih => exact (Lays.stop (symbol .comma) (lays_name n)).mul ih

theorem lays_parameters (ns : List Name) (hasVarargs : Bool) :
    Lays source (parameters ns hasVarargs) (ns.map .name) := by
  unfold parameters
  split
  · exact .stop _ (lays_beforeParameter ns)
  · rcases List.eq_nil_or_concat ns with rfl | ⟨ns, n, rfl⟩
    · exact .nothing _
    · rw [List.concat_eq_append, List.getLast?_concat, List.dropLast_concat, List.map_append]
      exact (lays_beforeParameter ns).mul (lays_name n)

theorem lays_fields (fs : List Field) : Lays source (fields fs) (fs.map .field) := by
  induction fs with
  | nil => exact .nothing _
  | cons f fs ih =>
    rw [fields]
    refine (fits_field f).lays.mul (.add (.skip _ ih) ?_)
    cases fs with
    | nil => exact .nothing _
    | cons f fs => exact .zero

theorem fits_table (t : Table) : Fits source (table t) (t.fields.map .field) := by
  obtain ⟨fs, span⟩ := t
  rw [table, mul_assoc]
  exact .of_le (spanned_le _ _) (.skip _ (.closing (lays_fields fs)))

/-! ## Words of blocks -/

theorem lays_statements (before : Option Statement) (ss : List Statement) :
    Lays source (statements before ss) (ss.map .statement) := by
  induction ss generalizing before with
  | nil => exact .nothing _
  | cons s ss ih =>
    rw [statements]
    simp only [mul_assoc]
    exact .skip _ ((fits_statement s).lays.mul (.skip _ (ih (some s))))

/-- A block without statements stands where it is looked for. Else it reaches from its first
statement to its last one. -/
theorem row_block {ss : List Statement} (hu : u ∈ block a ⟨ss, span⟩)
    (hq : Marches source a u b) :
    a.Leads source span.start ∧ span.stop.Leads source b ∧
      Row source span.start (ss.map .statement) span.stop := by
  rw [block] at hu
  obtain ⟨rfl, hu⟩ := hu
  have hrow := Lays.skip _ (lays_statements none ss) a u hu b hq
  cases ss with
  | nil => exact ⟨hq.leads.before.leads, hq.leads, hq.leads.before.leads⟩
  | cons s ss =>
    obtain ⟨last, hlast⟩ : ∃ last, (s :: ss).getLast? = some last := ⟨_, List.getLast?_cons⟩
    have hmap : Node.statement last ∈ ((s :: ss).map Node.statement).getLast? := by
      rw [List.getLast?_map, hlast]
      rfl
    obtain ⟨htight, hstop⟩ := Row.tight hrow hmap
    rw [blockSpan_cons a hlast]
    exact ⟨hrow.2.1, hstop, htight⟩

theorem lays_block (p : Position) (b : Block) : LaysFrom source p (block p b) [.block b] := by
  obtain ⟨ss, span⟩ := b
  intro u hu q hq
  obtain ⟨hstart, hstop, hrow⟩ := row_block hu hq
  exact ⟨⟨p, u, q, hu, hq⟩, hstart, hrow.leads, hstop⟩

theorem lays_otherwise (b : Option Block) :
    Lays source (otherwise b) (b.toList.map .block) := by
  cases b with
  | none => exact .nothing _
  | some b =>
    rw [otherwise]
    exact .behind fun c => lays_block c.next b

theorem lays_clause (keyword : Span) (c : Clause) :
    Lays source (clause keyword c) c.children := by
  obtain ⟨e, b, span⟩ := c
  rw [clause]
  refine (lays_expression e).mul (.behind fun c => ?_)
  exact fun u hu => lays_block c.next b u (provided_le _ _ hu)

theorem lays_moreClauses (cs : List Clause) :
    Lays source (moreClauses cs) (cs.flatMap Clause.children) := by
  induction cs with
  | nil => exact .nothing _
  | cons c cs ih =>
    rw [moreClauses, List.flatMap_cons]
    exact .mul (.behind fun keyword => lays_clause keyword.span c keyword.next) ih

theorem lays_clauses (cs : List Clause) :
    Lays source (clauses cs) (cs.flatMap Clause.children) := by
  cases cs with
  | nil =>
    rw [clauses]
    exact .zero
  | cons c cs =>
    rw [clauses, List.flatMap_cons]
    exact .mul (.behind fun keyword => lays_clause keyword.span c keyword.next)
      (lays_moreClauses cs)

theorem lays_step (e : Option Expression) :
    Lays source (step e) (e.toList.map .expression) := by
  cases e with
  | none => exact .nothing _
  | some e =>
    rw [step]
    exact .skip _ (lays_expression e)

/-! ## Children -/

theorem fits_children_statement (s : Statement) : Fits source (statement s) s.children := by
  cases s with
  | assign vs es span =>
    rw [statement, mul_assoc, targets_eq]
    exact .of_le (spanned_le _ _)
      (.mul (.list (fun v => (fits_target v).lays) vs) (.skip _ (fits_expressions es)))
  | localAssign ns es span =>
    rw [statement, mul_assoc]
    refine .of_le (spanned_le _ _) (.skip _ ?_)
    rw [Statement.children]
    cases es with
    | nil =>
      rw [assigned, mul_one, List.map_nil, List.append_nil]
      exact .list fits_name ns
    | cons e es =>
      rw [assigned, mul_assoc, ← expressions]
      exact .mul (.list lays_name ns) (.skip _ (fits_expressions (e :: es)))
  | call c =>
    rw [statement]
    exact fits_call c
  | doBlock b span =>
    rw [statement]
    exact .of_le (spanned_le _ _) (.closing (.behind fun c => lays_block c.next b))
  | whileLoop e b span =>
    rw [statement]
    simp only [mul_assoc]
    exact .of_le (spanned_le _ _) (.skip _ (.mul (lays_expression e)
      (.closing (.behind fun c => lays_block c.next b))))
  | repeatLoop b e span =>
    rw [statement, mul_assoc]
    exact .of_le (spanned_le _ _) (.mul (.behind fun c => lays_block c.next b)
      (.skip _ (fits_expression e)))
  | conditional cs b span =>
    rw [statement, mul_assoc]
    exact .of_le (spanned_le _ _) (.mul (lays_clauses cs) (.closing (lays_otherwise b)))
  | numericFor n start limit e b span =>
    rw [statement]
    simp only [mul_assoc]
    exact .of_le (spanned_le _ _) (.skip _ (.mul (lays_name n) (.skip _ (.mul
      (lays_expression start) (.skip _ (.mul (lays_expression limit) (.mul (lays_step e)
        (.closing (.behind fun c => lays_block c.next b)))))))))
  | genericFor ns es b span =>
    rw [statement]
    simp only [mul_assoc]
    exact .of_le (spanned_le _ _) (.skip _ (.mul (.list lays_name ns) (.skip _ (.mul
      (fits_expressions es).lays (.closing (.behind fun c => lays_block c.next b))))))
  | function f body span =>
    rw [statement, mul_assoc]
    exact .of_le (spanned_le _ _) (.skip _ (.mul (lays_functionName f) (fits_functionBody body)))
  | localFunction n body span =>
    rw [statement]
    simp only [mul_assoc]
    exact .of_le (spanned_le _ _) (.skip _ (.skip _ (.mul (lays_name n)
      (fits_functionBody body))))
  | label n span =>
    rw [statement, mul_assoc]
    exact .of_le (spanned_le _ _) (.skip _ (.closing (lays_name n)))
  | jump n span =>
    rw [statement]
    exact .of_le (spanned_le _ _) (.skip _ (fits_name n))
  | returnValues es span =>
    rw [statement]
    refine .of_le (spanned_le _ _) ?_
    cases es with
    | nil =>
      rw [values, mul_one]
      exact .symbol
    | cons e es =>
      rw [values, ← expressions]
      exact .skip _ (fits_expressions (e :: es))
  | breakLoop span =>
    rw [statement]
    exact .of_le (spanned_le _ _) .symbol

theorem fits_children_functionBody (f : FunctionBody) :
    Fits source (functionBody f) (Node.functionBody f).children := by
  obtain ⟨ns, hasVarargs, b, span⟩ := f
  rw [functionBody]
  simp only [mul_assoc]
  exact .of_le (spanned_le _ _) (.skip _ (.mul (lays_parameters ns hasVarargs)
    (.closing (.behind fun c => lays_block c.next b))))

theorem fits_children_expression (e : Expression) : Fits source (expression e) e.children := by
  cases e with
  | nil | boolean | number | string | varargs =>
    exact .nothing (nil_notMem_of_fills (fills_expression _))
  | function body span =>
    rw [expression]
    exact .of_le (spanned_le _ _) (.skip _ (fits_functionBody body))
  | primary p =>
    rw [expression]
    exact fits_primary p
  | table t =>
    rw [expression]
    exact fits_table t
  | binary op left right span =>
    rw [expression, mul_assoc]
    exact .of_le (spanned_le _ _) (.mul (lays_expression left) (.skip _ (fits_expression right)))
  | unary op operand span =>
    rw [expression]
    exact .of_le (spanned_le _ _) (.skip _ (fits_expression operand))

theorem fits_children_primary (p : Primary) : Fits source (primary p) p.children := by
  cases p with
  | var v =>
    rw [primary]
    exact fits_target v
  | call c =>
    rw [primary]
    exact fits_call c
  | parenthesized e span =>
    rw [primary, mul_assoc]
    exact .of_le (spanned_le _ _) (.skip _ (.closing (lays_expression e)))

theorem fits_children_target (v : Variable) : Fits source (target v) v.children := by
  cases v with
  | name n =>
    rw [target]
    exact fits_name n
  | index base key span =>
    rw [target]
    simp only [mul_assoc]
    exact .of_le (spanned_le _ _) (.mul (fits_primary base).lays
      (.skip _ (.closing (lays_expression key))))
  | member base n span =>
    rw [target, mul_assoc]
    exact .of_le (spanned_le _ _) (.mul (fits_primary base).lays (.skip _ (fits_name n)))

theorem fits_children_call (c : Call) : Fits source (call c) c.children := by
  cases c with
  | function callee args span =>
    rw [call]
    exact .of_le (spanned_le _ _) (.mul (fits_primary callee).lays (fits_arguments args))
  | method receiver n args span =>
    rw [call]
    simp only [mul_assoc]
    exact .of_le (spanned_le _ _) (.mul (fits_primary receiver).lays
      (.skip _ (.mul (lays_name n) (fits_arguments args))))

theorem fits_children_arguments (a : Arguments) : Fits source (arguments a) a.children := by
  cases a with
  | list es span =>
    rw [arguments, mul_assoc]
    exact .of_le (spanned_le _ _) (.skip _ (.closing (lays_values es)))
  | table t =>
    rw [arguments]
    exact fits_table t
  | string value span => exact .nothing (nil_notMem_of_fills (fills_arguments _))

theorem fits_children_field (f : Field) : Fits source (field f) f.children := by
  cases f with
  | keyed key value span =>
    rw [field]
    simp only [mul_assoc]
    exact .of_le (spanned_le _ _) (.skip _ (.mul (lays_expression key)
      (.skip _ (.skip _ (fits_expression value)))))
  | named n value span =>
    rw [field, mul_assoc]
    exact .of_le (spanned_le _ _) (.mul (lays_name n) (.skip _ (fits_expression value)))
  | positional value =>
    rw [field]
    exact fits_expression value

/-- The children of a node stand in a row inside its span, and are placed themselves. -/
theorem Placed.row (h : Placed source n) : Row source n.span.start n.children n.span.stop := by
  obtain ⟨p, u, q, hu, hq⟩ := h
  cases n with
  | block b =>
    obtain ⟨ss, span⟩ := b
    exact (row_block hu hq).2.2
  | statement s => exact (fits_children_statement s).row hu (fills_statement s u hu) hq
  | expression e => exact (fits_children_expression e).row hu (fills_expression e u hu) hq
  | primary p => exact (fits_children_primary p).row hu (fills_primary p u hu) hq
  | target v => exact (fits_children_target v).row hu (fills_target v u hu) hq
  | call c => exact (fits_children_call c).row hu (fills_call c u hu) hq
  | arguments a => exact (fits_children_arguments a).row hu (fills_arguments a u hu) hq
  | field f => exact (fits_children_field f).row hu (fills_field f u hu) hq
  | functionBody f => exact (fits_children_functionBody f).row hu (fills_functionBody f u hu) hq
  | name n =>
    exact (Fits.nothing (nil_notMem_of_fills (fills_name n))).row hu (fills_name n u hu) hq

/-- The span of a node is empty just if the node is a block without statements. -/
theorem Placed.isEmpty_iff (h : Placed source n) :
    n.span.isEmpty = true ↔ ∃ span, n = .block ⟨[], span⟩ := by
  have hword : ∀ {m : Node} {L : Language Mark}, (∀ p, nodeAt p m = L) → Placed source m →
      (∀ u ∈ L, Fills u m.span) → m.span.isEmpty = false := by
    rintro m L hm ⟨p, u, q, hu, hq⟩ hfills
    exact hq.isEmpty_eq_false (hfills u (hm p ▸ hu))
  cases n with
  | block b =>
    obtain ⟨ss, span⟩ := b
    cases ss with
    | nil =>
      obtain ⟨p, u, q, hu, -⟩ := h
      replace hu : u ∈ block p ⟨[], span⟩ := hu
      rw [block] at hu
      obtain ⟨rfl, -⟩ := hu
      exact iff_of_true (Span.isEmpty_empty p) ⟨_, rfl⟩
    | cons s ss =>
      obtain ⟨hplaced, hstart, -, hrest⟩ := h.row
      have hs := hword (fun _ => rfl) hplaced (fills_statement s)
      have hle := hplaced.row.leads.le.1
      have hfirst := hstart.le.1
      have hlast := hrest.leads.le.1
      rw [Span.isEmpty_eq_false_iff] at hs
      refine iff_of_false (ne_true_of_eq_false ?_) (by rintro ⟨_, ⟨⟩⟩)
      rw [Span.isEmpty_eq_false_iff]
      omega
  | statement s => simp [hword (fun _ => rfl) h (fills_statement s)]
  | expression e => simp [hword (fun _ => rfl) h (fills_expression e)]
  | primary p => simp [hword (fun _ => rfl) h (fills_primary p)]
  | target v => simp [hword (fun _ => rfl) h (fills_target v)]
  | call c => simp [hword (fun _ => rfl) h (fills_call c)]
  | arguments a => simp [hword (fun _ => rfl) h (fills_arguments a)]
  | field f => simp [hword (fun _ => rfl) h (fills_field f)]
  | functionBody f => simp [hword (fun _ => rfl) h (fills_functionBody f)]
  | name m => simp [hword (fun _ => rfl) h (fills_name m)]

end Placing

end LuaSource
