-- SUMMARY: The words that a tree stands for where its spans say: its grammar with places.
import LuaSource.Grammar.Statement
import LuaSource.Proofs.Grammar.Mark

/-!
# Placing

A tree with spans stands at certain places in a source. The words of marks that are placed by a
tree are those that spell it and in which every node takes up its span. They are put together
along the tree, as its spelling is. Where a span depends on the token before a node, which is the
case for the block behind a keyword and for a clause, the node is placed behind the mark of that
token.
-/

namespace LuaSource.Placing

/-! ## Words -/

/-- The words that are words of `L` if their places are left out. -/
def marked (L : Language Letter) : Language Mark := {u | u.map Mark.toLetter ∈ L}

/-- The word of a single mark. -/
def exactly (c : Mark) : Language Mark := {u | u = [c]}

/-- The words of `L` that take up a span. -/
def spanned (span : Span) (L : Language Mark) : Language Mark := {u | u ∈ L ∧ Fills u span}

/-- The words of `L` if a condition holds, and no word else. -/
def provided (p : Prop) (L : Language Mark) : Language Mark := {u | p ∧ u ∈ L}

/-- A symbol, and behind it a word that may depend on the mark of the symbol. -/
def behind (s : Symbol) (L : Mark → Language Mark) : Language Mark :=
  {u | ∃ c v, c.symbol = s ∧ v ∈ L c ∧ u = c :: v}

def symbol (s : Symbol) : Language Mark := marked (Spelling.symbol s)

def name (n : Name) : Language Mark := spanned n.span (marked (Spelling.name n))

/-- Items that each have a separator before them. -/
def series {α : Type} (separator : Symbol) (item : α → Language Mark) (as : List α) :
    Language Mark :=
  (as.map fun a => symbol separator * item a).prod

/-- One item or more, with separators between them. -/
def list {α : Type} (separator : Symbol) (item : α → Language Mark) : List α → Language Mark
  | [] => 0
  | a :: as => item a * series separator item as

/-! ## Names -/

def names (ns : List Name) : Language Mark := list .comma name ns

def path (ns : List Name) : Language Mark := list .dot name ns

/-- A method is named by a path, a colon and one name more. -/
def functionName (f : FunctionName) : Language Mark :=
  spanned f.span <|
    if f.isMethod then
      match f.path.getLast? with
      | none => 0
      | some method => path f.path.dropLast * symbol .colon * name method
    else path f.path

theorem functionName_function (ns : List Name) (span : Span) :
    functionName ⟨ns, false, span⟩ = spanned span (path ns) := by
  rw [functionName, if_neg Bool.false_ne_true]

theorem functionName_method (ns : List Name) (method : Name) (span : Span) :
    functionName ⟨ns ++ [method], true, span⟩ =
      spanned span (path ns * symbol .colon * name method) := by
  simp [functionName]

/-- Names with a comma behind each of them. -/
def beforeParameter (ns : List Name) : Language Mark :=
  (ns.map fun n => name n * symbol .comma).prod

/-- The last parameter, or the varargs mark, has no comma behind it. -/
def parameters (ns : List Name) (hasVarargs : Bool) : Language Mark :=
  if hasVarargs then beforeParameter ns * symbol .ellipsis
  else
    match ns.getLast? with
    | none => 1
    | some n => beforeParameter ns.dropLast * name n

/-! ## Nodes -/

mutual

/-- A block in front of which the next token starts at `start`. -/
def block (start : Position) : Block → Language Mark
  | ⟨ss, span⟩ =>
    provided (span = Grammar.blockSpan start ss) (marked Spelling.semicolons * statements none ss)

/-- Statements behind another one, if there is one before them in their block. -/
def statements (before : Option Statement) : List Statement → Language Mark
  | [] => 1
  | s :: ss =>
    marked (Spelling.separation before s) * statement s * marked (Spelling.trail s) *
      statements (some s) ss

def statement : Statement → Language Mark
  | .assign vs es span => spanned span (targets vs * symbol .assign * expressions es)
  | .localAssign ns es span => spanned span (symbol .kwLocal * names ns * assigned es)
  | .call c => call c
  | .doBlock b span => spanned span (behind .kwDo (fun c => block c.next b) * symbol .kwEnd)
  | .whileLoop e b span =>
    spanned span (symbol .kwWhile * expression e * behind .kwDo (fun c => block c.next b) *
      symbol .kwEnd)
  | .repeatLoop b e span =>
    spanned span (behind .kwRepeat (fun c => block c.next b) * symbol .kwUntil * expression e)
  | .conditional cs b span => spanned span (clauses cs * otherwise b * symbol .kwEnd)
  | .numericFor n start limit e b span =>
    spanned span (symbol .kwFor * name n * symbol .assign * expression start * symbol .comma *
      expression limit * step e * behind .kwDo (fun c => block c.next b) * symbol .kwEnd)
  | .genericFor ns es b span =>
    spanned span (symbol .kwFor * names ns * symbol .kwIn * expressions es *
      behind .kwDo (fun c => block c.next b) * symbol .kwEnd)
  | .function f body span =>
    spanned span (symbol .kwFunction * functionName f * functionBody body)
  | .localFunction n body span =>
    spanned span (symbol .kwLocal * symbol .kwFunction * name n * functionBody body)
  | .label n span => spanned span (symbol .doubleColon * name n * symbol .doubleColon)
  | .jump n span => spanned span (symbol .kwGoto * name n)
  | .returnValues es span => spanned span (symbol .kwReturn * values es)
  | .breakLoop span => spanned span (symbol .kwBreak)

/-- The values of local variables, which may be missing. -/
def assigned : List Expression → Language Mark
  | [] => 1
  | e :: es => symbol .assign * expression e * moreExpressions es

def step : Option Expression → Language Mark
  | none => 1
  | some e => symbol .comma * expression e

def otherwise : Option Block → Language Mark
  | none => 1
  | some b => behind .kwElse fun c => block c.next b

/-- One clause or more. -/
def clauses : List Clause → Language Mark
  | [] => 0
  | c :: cs => behind .kwIf (fun keyword => clause keyword.span c) * moreClauses cs

/-- Clauses behind a first one. -/
def moreClauses : List Clause → Language Mark
  | [] => 1
  | c :: cs => behind .kwElseif (fun keyword => clause keyword.span c) * moreClauses cs

/-- A clause behind its keyword. Without statements it ends with its `then`. -/
def clause (keyword : Span) : Clause → Language Mark
  | ⟨e, b, span⟩ =>
    expression e * behind .kwThen fun c =>
      provided (span = Span.between keyword (if b.statements.isEmpty then c.span else b.span))
        (block c.next b)

def functionBody : FunctionBody → Language Mark
  | ⟨ns, hasVarargs, b, span⟩ =>
    spanned span (symbol .leftParen * parameters ns hasVarargs *
      behind .rightParen (fun c => block c.next b) * symbol .kwEnd)

def expression : Expression → Language Mark
  | .nil span => spanned span (symbol .kwNil)
  | .boolean value span => spanned span (symbol (if value then .kwTrue else .kwFalse))
  | .number value span => spanned span (marked (Spelling.number value))
  | .string value span => spanned span (marked (Spelling.string value))
  | .varargs span => spanned span (symbol .ellipsis)
  | .function body span => spanned span (symbol .kwFunction * functionBody body)
  | .primary p => primary p
  | .table t => table t
  | .binary op left right span =>
    spanned span (expression left * symbol op.symbol * expression right)
  | .unary op operand span => spanned span (symbol op.symbol * expression operand)

/-- One expression or more. -/
def expressions : List Expression → Language Mark
  | [] => 0
  | e :: es => expression e * moreExpressions es

/-- Any number of expressions. -/
def values : List Expression → Language Mark
  | [] => 1
  | e :: es => expression e * moreExpressions es

/-- Expressions behind a first one. -/
def moreExpressions : List Expression → Language Mark
  | [] => 1
  | e :: es => symbol .comma * expression e * moreExpressions es

def primary : Primary → Language Mark
  | .var v => target v
  | .call c => call c
  | .parenthesized e span =>
    spanned span (symbol .leftParen * expression e * symbol .rightParen)

def target : Variable → Language Mark
  | .name n => name n
  | .index base key span =>
    spanned span (primary base * symbol .leftBracket * expression key * symbol .rightBracket)
  | .member base n span => spanned span (primary base * symbol .dot * name n)

/-- One target or more. -/
def targets : List Variable → Language Mark
  | [] => 0
  | v :: vs => target v * moreTargets vs

/-- Targets behind a first one. -/
def moreTargets : List Variable → Language Mark
  | [] => 1
  | v :: vs => symbol .comma * target v * moreTargets vs

def call : Call → Language Mark
  | .function callee args span => spanned span (primary callee * arguments args)
  | .method receiver n args span =>
    spanned span (primary receiver * symbol .colon * name n * arguments args)

def arguments : Arguments → Language Mark
  | .list es span => spanned span (marked Spelling.argumentParen * values es * symbol .rightParen)
  | .table t => table t
  | .string value span => spanned span (marked (Spelling.string value))

def table : Table → Language Mark
  | ⟨fs, span⟩ => spanned span (symbol .leftBrace * fields fs * symbol .rightBrace)

/-- Fields with separators between them. One may stand behind the last field too. -/
def fields : List Field → Language Mark
  | [] => 1
  | f :: fs => field f * (marked Spelling.fieldSeparator * fields fs + if fs.isEmpty then 1 else 0)

def field : Field → Language Mark
  | .keyed key value span =>
    spanned span (symbol .leftBracket * expression key * symbol .rightBracket * symbol .assign *
      expression value)
  | .named n value span => spanned span (name n * symbol .assign * expression value)
  | .positional value => expression value

end

/-! ## Words -/

section

variable {K L M : Language Mark} {span : Span}

theorem marked_mono {L M : Language Letter} (h : L ≤ M) : marked L ≤ marked M := fun _ hu => h hu

theorem marked_mul_le (L M : Language Letter) : marked L * marked M ≤ marked (L * M) := by
  intro u hu
  obtain ⟨v, hv, w, hw, rfl⟩ := Language.mem_mul.1 hu
  show (v ++ w).map Mark.toLetter ∈ L * M
  rw [List.map_append]
  exact Language.append_mem_mul hv hw

theorem one_le_marked {L : Language Letter} (h : 1 ≤ L) : 1 ≤ marked L := by
  intro u hu
  obtain rfl := (Language.mem_one u).1 hu
  exact h Language.nil_mem_one

theorem spanned_le (span : Span) (L : Language Mark) : spanned span L ≤ L := fun _ hu => hu.1

theorem provided_le (p : Prop) (L : Language Mark) : provided p L ≤ L := fun _ hu => hu.2

theorem le_provided {p : Prop} (h : p) (L : Language Mark) : L ≤ provided p L :=
  fun _ hu => ⟨h, hu⟩

theorem exactly_le_symbol {c : Mark} {s : Symbol} (h : c.symbol = s) : exactly c ≤ symbol s := by
  rintro u rfl
  exact ⟨c.toLetter, h, rfl⟩

theorem behind_const (s : Symbol) (L : Language Mark) : behind s (fun _ => L) = symbol s * L := by
  apply le_antisymm
  · rintro u ⟨c, v, hc, hv, rfl⟩
    exact Language.append_mem_mul (exactly_le_symbol hc rfl) hv
  · intro u hu
    obtain ⟨w, ⟨d, hd, hw⟩, v, hv, rfl⟩ := Language.mem_mul.1 hu
    obtain ⟨c, rfl, rfl⟩ := List.map_eq_singleton_iff.1 hw
    exact ⟨c, v, hd, hv, rfl⟩

theorem exactly_mul_le_behind {c : Mark} {s : Symbol} (h : c.symbol = s)
    (L : Mark → Language Mark) : exactly c * L c ≤ behind s L := by
  intro u hu
  obtain ⟨_, rfl, v, hv, rfl⟩ := Language.mem_mul.1 hu
  exact ⟨c, v, h, hv, rfl⟩

/-- What a word of `L` begins with or ends with leaves something to be taken. -/
theorem nil_notMem_mul (h : [] ∉ L) : [] ∉ K * L := by
  intro hnil
  obtain ⟨u, -, v, hv, heq⟩ := Language.mem_mul.1 hnil
  rw [(List.append_eq_nil_iff.1 heq).2] at hv
  exact h hv

theorem nil_notMem_symbol (s : Symbol) : [] ∉ symbol s := by
  rintro ⟨c, -, hc⟩
  cases hc

theorem nil_notMem_of_fills (h : ∀ u ∈ L, Fills u span) : [] ∉ L :=
  fun hnil => (h [] hnil).ne_nil rfl

end

/-! ## Spans of nodes -/

theorem fills_name (n : Name) : ∀ u ∈ name n, Fills u n.span := fun _ hu => hu.2

theorem fills_functionBody (f : FunctionBody) : ∀ u ∈ functionBody f, Fills u f.span := by
  intro u hu
  obtain ⟨ns, hasVarargs, b, span⟩ := f
  rw [functionBody] at hu
  exact hu.2

theorem fills_table (t : Table) : ∀ u ∈ table t, Fills u t.span := by
  intro u hu
  obtain ⟨fs, span⟩ := t
  rw [table] at hu
  exact hu.2

theorem fills_arguments (a : Arguments) : ∀ u ∈ arguments a, Fills u a.span := by
  intro u hu
  cases a with
  | table t =>
    rw [arguments] at hu
    exact fills_table t u hu
  | _ =>
    rw [arguments] at hu
    exact hu.2

theorem fills_call (c : Call) : ∀ u ∈ call c, Fills u c.span := by
  intro u hu
  cases c <;>
  · rw [call] at hu
    exact hu.2

theorem fills_target (v : Variable) : ∀ u ∈ target v, Fills u v.span := by
  intro u hu
  cases v <;>
  · rw [target] at hu
    exact hu.2

theorem fills_primary (p : Primary) : ∀ u ∈ primary p, Fills u p.span := by
  intro u hu
  cases p with
  | var v =>
    rw [primary] at hu
    exact fills_target v u hu
  | call c =>
    rw [primary] at hu
    exact fills_call c u hu
  | parenthesized e span =>
    rw [primary] at hu
    exact hu.2

theorem fills_expression (e : Expression) : ∀ u ∈ expression e, Fills u e.span := by
  intro u hu
  cases e with
  | primary p =>
    rw [expression] at hu
    exact fills_primary p u hu
  | table t =>
    rw [expression] at hu
    exact fills_table t u hu
  | _ =>
    rw [expression] at hu
    exact hu.2

theorem fills_statement (s : Statement) : ∀ u ∈ statement s, Fills u s.span := by
  intro u hu
  cases s with
  | call c =>
    rw [statement] at hu
    exact fills_call c u hu
  | _ =>
    rw [statement] at hu
    exact hu.2

/-! ## Lists of nodes -/

theorem series_nil {α : Type} (separator : Symbol) (item : α → Language Mark) :
    series separator item [] = 1 := rfl

theorem series_cons {α : Type} (separator : Symbol) (item : α → Language Mark) (a : α)
    (as : List α) :
    series separator item (a :: as) = symbol separator * item a * series separator item as := by
  rw [series, List.map_cons, List.prod_cons, ← series]

/-- A list reaches from its first item to its last one. -/
theorem fills_list {α : Type} {separator : Symbol} {item : α → Language Mark} {span : α → Span}
    (hitem : ∀ a, ∀ u ∈ item a, Fills u (span a)) {as : List α} {u : List Mark}
    (hu : u ∈ list separator item as) :
    ∃ first ∈ as.head?, ∃ last ∈ as.getLast?, Fills u (Span.between (span first) (span last)) := by
  induction as generalizing u with
  | nil => exact absurd hu (Language.notMem_zero u)
  | cons a as ih =>
    refine ⟨a, rfl, ?_⟩
    rw [list] at hu
    cases as with
    | nil =>
      rw [series_nil, mul_one] at hu
      exact ⟨a, rfl, hitem a u hu⟩
    | cons b bs =>
      rw [series_cons, mul_assoc] at hu
      obtain ⟨x, hx, y, hy, rfl⟩ := Language.mem_mul.1 hu
      obtain ⟨s, -, v, hv, rfl⟩ := Language.mem_mul.1 hy
      obtain ⟨_, -, last, hlast, hfills⟩ := ih (u := v) hv
      have hall : Fills (x ++ (s ++ v)) _ := (hitem a x hx).append hfills
      exact ⟨last, by rwa [List.getLast?_cons_cons], hall⟩

theorem moreExpressions_eq (es : List Expression) :
    moreExpressions es = series .comma expression es := by
  induction es with
  | nil => rw [moreExpressions, series_nil]
  | cons e es ih => rw [moreExpressions, series_cons, ih]

theorem expressions_eq (es : List Expression) : expressions es = list .comma expression es := by
  cases es with
  | nil => rw [expressions, list]
  | cons e es => rw [expressions, list, moreExpressions_eq]

theorem moreTargets_eq (vs : List Variable) : moreTargets vs = series .comma target vs := by
  induction vs with
  | nil => rw [moreTargets, series_nil]
  | cons v vs ih => rw [moreTargets, series_cons, ih]

theorem targets_eq (vs : List Variable) : targets vs = list .comma target vs := by
  cases vs with
  | nil => rw [targets, list]
  | cons v vs => rw [targets, list, moreTargets_eq]

theorem moreClauses_eq (cs : List Clause) :
    moreClauses cs =
      (cs.map fun c => behind .kwElseif fun keyword => clause keyword.span c).prod := by
  induction cs with
  | nil => rw [moreClauses, List.map_nil, List.prod_nil]
  | cons c cs ih => rw [moreClauses, List.map_cons, List.prod_cons, ih]

theorem statements_concat (before : Option Statement) (ss : List Statement) (s : Statement) :
    statements before (ss ++ [s]) =
      statements before ss * marked (Spelling.separation (ss.getLast?.or before) s) * statement s *
        marked (Spelling.trail s) := by
  induction ss generalizing before with
  | nil => simp [statements]
  | cons t ss ih =>
    simp only [List.cons_append, statements, ih, mul_assoc, List.getLast?_cons, Option.some_or,
      Option.or_some]

end LuaSource.Placing
