-- SUMMARY: What a tree is placed by spells it, also if more of the tokens are on the line before.
import LuaSource.Proofs.Grammar.PlaceExpression
import LuaSource.Proofs.Grammar.ReadExpression
import Mathlib.Data.List.Forall2

/-!
# From places to spelling

Without their places, the words that a tree is placed by are words that spell it. They stay so if
a token that began a line comes to stand on the line of the token before it: only arguments ask
for a line, and they ask for the same one. This is what happens to the first token of a node when
the node is cut out of its source.
-/

namespace LuaSource

/-- The letter `d` is `c`, and on the line of the letter before it if `c` is. -/
structure Letter.Loosens (c d : Letter) : Prop where
  toLexeme : c.toLexeme = d.toLexeme
  joined : c.joined = true → d.joined = true

theorem Letter.Loosens.refl (c : Letter) : c.Loosens c := ⟨rfl, fun h => h⟩

theorem Letter.Loosens.symbol {c d : Letter} (h : c.Loosens d) : c.symbol = d.symbol :=
  congrArg Lexeme.symbol h.toLexeme

theorem Letter.Loosens.content {c d : Letter} (h : c.Loosens d) : c.content = d.content :=
  congrArg (·.value.getD "") h.toLexeme

namespace Spelling

/-! ## Letters that may be joined -/

/-- The words of `L` stay words of `L` if more of their letters are joined. -/
def Loose (L : Language Letter) : Prop := ∀ u ∈ L, ∀ v, List.Forall₂ Letter.Loosens u v → v ∈ L

theorem loose_letter {p : Letter → Prop} (h : ∀ c d, c.Loosens d → p c → p d) :
    Loose (letter p) := by
  rintro u ⟨c, hc, rfl⟩ v hv
  obtain ⟨d, w, hd, hw, rfl⟩ := List.forall₂_cons_left_iff.1 hv
  obtain rfl := List.forall₂_nil_left_iff.1 hw
  exact ⟨d, h c d hd hc, rfl⟩

theorem loose_symbol (s : Symbol) : Loose (symbol s) :=
  loose_letter fun _ _ h hc => h.symbol.symm.trans hc

theorem loose_name (n : Name) : Loose (name n) :=
  loose_letter fun _ _ h hc => ⟨h.symbol.symm.trans hc.1, h.content.symm.trans hc.2⟩

theorem loose_number (value : Double) : Loose (number value) := by
  refine loose_letter fun _ _ h hc => ⟨h.symbol.symm.trans hc.1, ?_⟩
  rw [← h.content]
  exact hc.2

theorem loose_string (value : String) : Loose (string value) :=
  loose_letter fun _ _ h hc => ⟨h.symbol.symm.trans hc.1, h.content.symm.trans hc.2⟩

theorem loose_argumentParen : Loose argumentParen :=
  loose_letter fun _ _ h hc => ⟨h.symbol.symm.trans hc.1, h.joined hc.2⟩

theorem loose_one : Loose 1 := by
  intro u hu v hv
  obtain rfl := (Language.mem_one u).1 hu
  rw [List.forall₂_nil_left_iff.1 hv]
  exact Language.nil_mem_one

theorem Loose.add {L M : Language Letter} (hL : Loose L) (hM : Loose M) : Loose (L + M) :=
  fun _ hu v hv => hu.imp (fun hu => hL _ hu v hv) fun hu => hM _ hu v hv

theorem mem_semicolons_iff {u : List Letter} : u ∈ semicolons ↔ ∀ c ∈ u, c.symbol = .semicolon := by
  constructor
  · intro hu c hc
    obtain ⟨us, rfl, hus⟩ := Language.mem_kstar.1 hu
    obtain ⟨w, hw, hcw⟩ := List.mem_flatten.1 hc
    obtain ⟨d, hd, rfl⟩ := hus w hw
    rwa [List.mem_singleton.1 hcw]
  · intro hu
    refine Language.mem_kstar.2 ⟨u.map fun c => [c], (List.flatMap_singleton' u).symm, ?_⟩
    intro w hw
    obtain ⟨c, hc, rfl⟩ := List.mem_map.1 hw
    exact ⟨c, hu c hc, rfl⟩

theorem loose_semicolons : Loose semicolons := by
  intro u hu v hv
  rw [mem_semicolons_iff] at hu ⊢
  induction hv with
  | nil => exact hu
  | cons hcd _ ih =>
    obtain ⟨hc, hu⟩ := List.forall_mem_cons.1 hu
    exact List.forall_mem_cons.2 ⟨hcd.symbol.symm.trans hc, ih hu⟩

theorem loose_fieldSeparator : Loose fieldSeparator := (loose_symbol _).add (loose_symbol _)

theorem loose_separation (before : Option Statement) (s : Statement) :
    Loose (separation before s) := by
  unfold separation
  split
  · exact loose_symbol _
  · exact loose_one

theorem loose_trail (s : Statement) : Loose (trail s) := by
  unfold trail
  split
  · exact loose_one.add (loose_symbol _)
  · exact loose_semicolons

end Spelling

namespace Placing

/-- The words of `L` are words of `M` if their places are left out, and more of their letters may
be joined. -/
def Relaxes (L : Language Mark) (M : Language Letter) : Prop :=
  ∀ u ∈ L, ∀ v, List.Forall₂ Letter.Loosens (u.map Mark.toLetter) v → v ∈ M

namespace Relaxes

variable {K L : Language Mark} {M N : Language Letter} {s : Symbol} {span : Span}

theorem marked (h : Spelling.Loose M) : Relaxes (marked M) M := fun _ hu => h _ hu

theorem symbol : Relaxes (symbol s) (Spelling.symbol s) := .marked (Spelling.loose_symbol s)

theorem zero : Relaxes 0 M := fun u hu => absurd hu (Language.notMem_zero u)

theorem one : Relaxes 1 1 := by
  intro u hu v hv
  obtain rfl := (Language.mem_one u).1 hu
  rw [List.forall₂_nil_left_iff.1 hv]
  exact Language.nil_mem_one

theorem mono (h : Relaxes L M) (hMN : M ≤ N) : Relaxes L N := fun u hu v hv => hMN (h u hu v hv)

theorem add (hK : Relaxes K M) (hL : Relaxes L M) : Relaxes (K + L) M :=
  fun u hu => hu.elim (hK u) (hL u)

theorem mul (hK : Relaxes K M) (hL : Relaxes L N) : Relaxes (K * L) (M * N) := by
  intro u hu v hv
  obtain ⟨x, hx, y, hy, rfl⟩ := Language.mem_mul.1 hu
  rw [List.map_append] at hv
  have hfirst := List.forall₂_take_append _ _ _ hv.flip
  have hrest := List.forall₂_drop_append _ _ _ hv.flip
  rw [← List.take_append_drop (x.map Mark.toLetter).length v]
  exact Language.append_mem_mul (hK x hx _ hfirst.flip) (hL y hy _ hrest.flip)

theorem spanned (h : Relaxes L M) : Relaxes (spanned span L) M := fun u hu => h u hu.1

theorem provided {p : Prop} (h : Relaxes L M) : Relaxes (provided p L) M := fun u hu => h u hu.2

/-- What stands behind a symbol and may depend on its place. -/
theorem behind {L : Mark → Language Mark} (h : ∀ c, Relaxes (L c) M) :
    Relaxes (behind s L) (Spelling.symbol s * M) := by
  rintro u ⟨c, w, hc, hw, rfl⟩ v hv
  obtain ⟨d, x, hd, hx, rfl⟩ := List.forall₂_cons_left_iff.1 hv
  have hs : [d] ∈ Spelling.symbol s := ⟨d, hd.symbol.symm.trans hc, rfl⟩
  exact Language.append_mem_mul hs (h c w hw x hx)

theorem mulBehind {L : Mark → Language Mark} (hK : Relaxes K M) (h : ∀ c, Relaxes (L c) N) :
    Relaxes (K * Placing.behind s L) (M * Spelling.symbol s * N) := by
  rw [mul_assoc]
  exact hK.mul (behind h)

theorem name (n : Name) : Relaxes (name n) (Spelling.name n) :=
  spanned (marked (Spelling.loose_name n))

theorem series {α : Type} {item : α → Language Mark} {item' : α → Language Letter}
    (h : ∀ a, Relaxes (item a) (item' a)) (as : List α) :
    Relaxes (series s item as) (Spelling.series s item' as) := by
  induction as with
  | nil => exact one
  | cons a as ih =>
    rw [series_cons, Spelling.series]
    exact (symbol.mul (h a)).mul ih

theorem list {α : Type} {item : α → Language Mark} {item' : α → Language Letter}
    (h : ∀ a, Relaxes (item a) (item' a)) (as : List α) :
    Relaxes (list s item as) (Spelling.list s item' as) := by
  cases as with
  | nil => exact zero
  | cons a as => exact (h a).mul (series h as)

theorem names (ns : List Name) : Relaxes (names ns) (Spelling.names ns) := list name ns

theorem path (ns : List Name) : Relaxes (path ns) (Spelling.path ns) := list name ns

theorem functionName (f : FunctionName) :
    Relaxes (functionName f) (Spelling.functionName f) := by
  rw [Placing.functionName, Spelling.functionName]
  refine spanned ?_
  split
  · cases f.path.getLast? with
    | none => exact zero
    | some method => exact ((path _).mul symbol).mul (name method)
  · exact path _

theorem beforeParameter (ns : List Name) :
    Relaxes (beforeParameter ns) (Read.beforeParameter ns) := by
  induction ns using List.reverseRecOn with
  | nil => exact one
  | append_singleton ns n ih =>
    rw [Placing.beforeParameter, List.map_append, List.prod_append, List.map_singleton,
      List.prod_singleton, ← Placing.beforeParameter, Read.beforeParameter_eq (by simp),
      ← Read.beforeParameter_mul_name, mul_assoc]
    exact ih.mul ((name n).mul symbol)

theorem parameters (ns : List Name) (hasVarargs : Bool) :
    Relaxes (parameters ns hasVarargs) (Spelling.parameters ns hasVarargs) := by
  cases hasVarargs with
  | true =>
    rw [← Read.beforeParameter_mul_ellipsis, Placing.parameters, if_pos rfl]
    exact (beforeParameter ns).mul symbol
  | false =>
    rw [Placing.parameters, if_neg Bool.false_ne_true]
    rcases List.eq_nil_or_concat ns with rfl | ⟨ns, n, rfl⟩
    · exact one
    · rw [List.concat_eq_append, List.getLast?_concat, Read.parameters_eq (by simp),
        ← Read.beforeParameter_mul_name]
      simp only [List.dropLast_concat]
      exact (beforeParameter ns).mul (name n)

end Relaxes

/-! ## Nodes -/

theorem fieldSeparator_mul_fields_le (fs : List Field) :
    Spelling.fieldSeparator * Spelling.fields fs ≤ Spelling.moreFields fs := by
  cases fs with
  | nil =>
    rw [Spelling.fields, Spelling.moreFields, mul_one]
    exact le_add_self
  | cons f fs => rw [Spelling.fields, Spelling.moreFields, mul_assoc]

mutual

theorem relaxes_block (start : Position) (b : Block) : Relaxes (block start b) (Spelling.block b) :=
  match b with
  | ⟨ss, _⟩ => by
    rw [block, Spelling.block]
    exact .provided (.mul (.marked Spelling.loose_semicolons) (relaxes_statements none ss))

theorem relaxes_statements (before : Option Statement) (ss : List Statement) :
    Relaxes (statements before ss) (Spelling.statements before ss) :=
  match ss with
  | [] => by
    rw [statements, Spelling.statements]
    exact .one
  | s :: ss => by
    rw [statements, Spelling.statements]
    exact .mul (.mul (.mul (.marked (Spelling.loose_separation before s)) (relaxes_statement s))
      (.marked (Spelling.loose_trail s))) (relaxes_statements (some s) ss)

theorem relaxes_statement (s : Statement) : Relaxes (statement s) (Spelling.statement s) :=
  match s with
  | .assign vs es _ => by
    rw [statement, Spelling.statement]
    exact .spanned (.mul (.mul (relaxes_targets vs) .symbol) (relaxes_expressions es))
  | .localAssign ns es _ => by
    rw [statement, Spelling.statement]
    exact .spanned (.mul (.mul .symbol (.names ns)) (relaxes_assigned es))
  | .call c => by
    rw [statement, Spelling.statement]
    exact relaxes_call c
  | .doBlock b _ => by
    rw [statement, Spelling.statement]
    exact .spanned (.mul (.behind fun c => relaxes_block c.next b) .symbol)
  | .whileLoop e b _ => by
    rw [statement, Spelling.statement]
    exact .spanned (.mul (.mulBehind (.mul .symbol (relaxes_expression e)) fun c =>
      relaxes_block c.next b) .symbol)
  | .repeatLoop b e _ => by
    rw [statement, Spelling.statement]
    exact .spanned (.mul (.mul (.behind fun c => relaxes_block c.next b) .symbol)
      (relaxes_expression e))
  | .conditional cs b _ => by
    rw [statement, Spelling.statement]
    exact .spanned (.mul (.mul (relaxes_clauses cs) (relaxes_otherwise b)) .symbol)
  | .numericFor n start limit e b _ => by
    rw [statement, Spelling.statement]
    exact .spanned (.mul (.mulBehind (.mul (.mul (.mul (.mul (.mul (.mul .symbol (.name n)) .symbol)
      (relaxes_expression start)) .symbol) (relaxes_expression limit)) (relaxes_step e)) fun c =>
      relaxes_block c.next b) .symbol)
  | .genericFor ns es b _ => by
    rw [statement, Spelling.statement]
    exact .spanned (.mul (.mulBehind (.mul (.mul (.mul .symbol (.names ns)) .symbol)
      (relaxes_expressions es)) fun c => relaxes_block c.next b) .symbol)
  | .function f body _ => by
    rw [statement, Spelling.statement]
    exact .spanned (.mul (.mul .symbol (.functionName f)) (relaxes_functionBody body))
  | .localFunction n body _ => by
    rw [statement, Spelling.statement]
    exact .spanned (.mul (.mul (.mul .symbol .symbol) (.name n)) (relaxes_functionBody body))
  | .label n _ => by
    rw [statement, Spelling.statement]
    exact .spanned (.mul (.mul .symbol (.name n)) .symbol)
  | .jump n _ => by
    rw [statement, Spelling.statement]
    exact .spanned (.mul .symbol (.name n))
  | .returnValues es _ => by
    rw [statement, Spelling.statement]
    exact .spanned (.mul .symbol (relaxes_values es))
  | .breakLoop _ => by
    rw [statement, Spelling.statement]
    exact .spanned .symbol

theorem relaxes_assigned (es : List Expression) :
    Relaxes (assigned es) (Spelling.assigned es) :=
  match es with
  | [] => by
    rw [assigned, Spelling.assigned]
    exact .one
  | e :: es => by
    rw [assigned, Spelling.assigned]
    exact .mul (.mul .symbol (relaxes_expression e)) (relaxes_moreExpressions es)

theorem relaxes_step (e : Option Expression) : Relaxes (step e) (Spelling.step e) :=
  match e with
  | none => by
    rw [step, Spelling.step]
    exact .one
  | some e => by
    rw [step, Spelling.step]
    exact .mul .symbol (relaxes_expression e)

theorem relaxes_otherwise (b : Option Block) : Relaxes (otherwise b) (Spelling.otherwise b) :=
  match b with
  | none => by
    rw [otherwise, Spelling.otherwise]
    exact .one
  | some b => by
    rw [otherwise, Spelling.otherwise]
    exact .behind fun c => relaxes_block c.next b

theorem relaxes_clauses (cs : List Clause) : Relaxes (clauses cs) (Spelling.clauses cs) :=
  match cs with
  | [] => by
    rw [clauses, Spelling.clauses]
    exact .zero
  | d :: cs => by
    rw [clauses, Spelling.clauses]
    exact .mul (.behind fun c => relaxes_clause c.span d) (relaxes_moreClauses cs)

theorem relaxes_moreClauses (cs : List Clause) :
    Relaxes (moreClauses cs) (Spelling.moreClauses cs) :=
  match cs with
  | [] => by
    rw [moreClauses, Spelling.moreClauses]
    exact .one
  | d :: cs => by
    rw [moreClauses, Spelling.moreClauses]
    exact .mul (.behind fun c => relaxes_clause c.span d) (relaxes_moreClauses cs)

theorem relaxes_clause (keyword : Span) (d : Clause) :
    Relaxes (clause keyword d) (Spelling.clause d) :=
  match d with
  | ⟨e, b, _⟩ => by
    rw [clause, Spelling.clause]
    exact .mulBehind (relaxes_expression e) fun c => .provided (relaxes_block c.next b)

theorem relaxes_functionBody (f : FunctionBody) :
    Relaxes (functionBody f) (Spelling.functionBody f) :=
  match f with
  | ⟨ns, hasVarargs, b, _⟩ => by
    rw [functionBody, Spelling.functionBody]
    exact .spanned (.mul (.mulBehind (.mul .symbol (.parameters ns hasVarargs)) fun c =>
      relaxes_block c.next b) .symbol)

theorem relaxes_expression (e : Expression) : Relaxes (expression e) (Spelling.expression e) :=
  match e with
  | .nil _ | .boolean _ _ | .varargs _ => by
    rw [expression, Spelling.expression]
    exact .spanned .symbol
  | .number value _ => by
    rw [expression, Spelling.expression]
    exact .spanned (.marked (Spelling.loose_number value))
  | .string value _ => by
    rw [expression, Spelling.expression]
    exact .spanned (.marked (Spelling.loose_string value))
  | .function body _ => by
    rw [expression, Spelling.expression]
    exact .spanned (.mul .symbol (relaxes_functionBody body))
  | .primary p => by
    rw [expression, Spelling.expression]
    exact relaxes_primary p
  | .table t => by
    rw [expression, Spelling.expression]
    exact relaxes_table t
  | .binary _ left right _ => by
    rw [expression, Spelling.expression]
    exact .spanned (.mul (.mul (relaxes_expression left) .symbol) (relaxes_expression right))
  | .unary _ operand _ => by
    rw [expression, Spelling.expression]
    exact .spanned (.mul .symbol (relaxes_expression operand))

theorem relaxes_expressions (es : List Expression) :
    Relaxes (expressions es) (Spelling.expressions es) :=
  match es with
  | [] => by
    rw [expressions, Spelling.expressions]
    exact .zero
  | e :: es => by
    rw [expressions, Spelling.expressions]
    exact .mul (relaxes_expression e) (relaxes_moreExpressions es)

theorem relaxes_values (es : List Expression) : Relaxes (values es) (Spelling.values es) :=
  match es with
  | [] => by
    rw [values, Spelling.values]
    exact .one
  | e :: es => by
    rw [values, Spelling.values]
    exact .mul (relaxes_expression e) (relaxes_moreExpressions es)

theorem relaxes_moreExpressions (es : List Expression) :
    Relaxes (moreExpressions es) (Spelling.moreExpressions es) :=
  match es with
  | [] => by
    rw [moreExpressions, Spelling.moreExpressions]
    exact .one
  | e :: es => by
    rw [moreExpressions, Spelling.moreExpressions]
    exact .mul (.mul .symbol (relaxes_expression e)) (relaxes_moreExpressions es)

theorem relaxes_primary (p : Primary) : Relaxes (primary p) (Spelling.primary p) :=
  match p with
  | .var v => by
    rw [primary, Spelling.primary]
    exact relaxes_target v
  | .call c => by
    rw [primary, Spelling.primary]
    exact relaxes_call c
  | .parenthesized e _ => by
    rw [primary, Spelling.primary]
    exact .spanned (.mul (.mul .symbol (relaxes_expression e)) .symbol)

theorem relaxes_target (v : Variable) : Relaxes (target v) (Spelling.target v) :=
  match v with
  | .name n => by
    rw [target, Spelling.target]
    exact .name n
  | .index base key _ => by
    rw [target, Spelling.target]
    exact .spanned (.mul (.mul (.mul (relaxes_primary base) .symbol) (relaxes_expression key))
      .symbol)
  | .member base n _ => by
    rw [target, Spelling.target]
    exact .spanned (.mul (.mul (relaxes_primary base) .symbol) (.name n))

theorem relaxes_targets (vs : List Variable) : Relaxes (targets vs) (Spelling.targets vs) :=
  match vs with
  | [] => by
    rw [targets, Spelling.targets]
    exact .zero
  | v :: vs => by
    rw [targets, Spelling.targets]
    exact .mul (relaxes_target v) (relaxes_moreTargets vs)

theorem relaxes_moreTargets (vs : List Variable) :
    Relaxes (moreTargets vs) (Spelling.moreTargets vs) :=
  match vs with
  | [] => by
    rw [moreTargets, Spelling.moreTargets]
    exact .one
  | v :: vs => by
    rw [moreTargets, Spelling.moreTargets]
    exact .mul (.mul .symbol (relaxes_target v)) (relaxes_moreTargets vs)

theorem relaxes_call (c : Call) : Relaxes (call c) (Spelling.call c) :=
  match c with
  | .function callee args _ => by
    rw [call, Spelling.call]
    exact .spanned (.mul (relaxes_primary callee) (relaxes_arguments args))
  | .method receiver n args _ => by
    rw [call, Spelling.call]
    exact .spanned (.mul (.mul (.mul (relaxes_primary receiver) .symbol) (.name n))
      (relaxes_arguments args))

theorem relaxes_arguments (a : Arguments) : Relaxes (arguments a) (Spelling.arguments a) :=
  match a with
  | .list es _ => by
    rw [arguments, Spelling.arguments]
    exact .spanned (.mul (.mul (.marked Spelling.loose_argumentParen) (relaxes_values es)) .symbol)
  | .table t => by
    rw [arguments, Spelling.arguments]
    exact relaxes_table t
  | .string value _ => by
    rw [arguments, Spelling.arguments]
    exact .spanned (.marked (Spelling.loose_string value))

theorem relaxes_table (t : Table) : Relaxes (table t) (Spelling.table t) :=
  match t with
  | ⟨fs, _⟩ => by
    rw [table, Spelling.table]
    exact .spanned (.mul (.mul .symbol (relaxes_fields fs)) .symbol)

theorem relaxes_fields (fs : List Field) : Relaxes (fields fs) (Spelling.fields fs) :=
  match fs with
  | [] => by
    rw [fields, Spelling.fields]
    exact .one
  | f :: fs => by
    rw [fields, Spelling.fields]
    have hseparated := Relaxes.mul (.marked Spelling.loose_fieldSeparator) (relaxes_fields fs)
    refine .mul (relaxes_field f) (.add (hseparated.mono (fieldSeparator_mul_fields_le fs)) ?_)
    cases fs with
    | nil => exact Relaxes.one.mono Read.one_le_moreFields_nil
    | cons g gs => exact .zero

theorem relaxes_field (f : Field) : Relaxes (field f) (Spelling.field f) :=
  match f with
  | .keyed key value _ => by
    rw [field, Spelling.field]
    exact .spanned (.mul (.mul (.mul (.mul .symbol (relaxes_expression key)) .symbol) .symbol)
      (relaxes_expression value))
  | .named n value _ => by
    rw [field, Spelling.field]
    exact .spanned (.mul (.mul (.name n) .symbol) (relaxes_expression value))
  | .positional value => by
    rw [field, Spelling.field]
    exact relaxes_expression value

end

end Placing

end LuaSource
