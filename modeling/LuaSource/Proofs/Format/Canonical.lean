-- SUMMARY: The lexemes of a source without the choices that make no difference to its tree.
import LuaSource.Proofs.Grammar.Beginnings
import Mathlib.Algebra.Order.Kleene

/-!
# Canonical lexemes

Three things in a sequence of lexemes are left to choice: the semicolons between statements, the
separators between the fields of a table, and how a number is written. The canonical form of a
sequence has none of the first, commas for the second and none before a closing brace, and the
values of numbers. All words that spell one tree have one canonical form.
-/

namespace LuaSource

/-! ## The canonical form -/

/-- What is open at a place in a sequence of lexemes. -/
inductive Bracket
  | table
  | block
deriving DecidableEq

/-- What is open behind a symbol, the innermost first. The blocks of `while` and `for` open with
their `do`. -/
def Symbol.openedBy (opened : List Bracket) : Symbol → List Bracket
  | .leftBrace => .table :: opened
  | .kwDo | .kwFunction | .kwIf | .kwRepeat => .block :: opened
  | .rightBrace | .kwEnd | .kwUntil => opened.tail
  | _ => opened

/-- Leave out the semicolons between statements, and put commas for those between the fields of a
table. -/
def withoutSemicolons (opened : List Bracket) : List Lexeme → List Lexeme
  | [] => []
  | l :: ls =>
    if l.symbol = .semicolon then
      if opened.head? = some .table then { symbol := .comma } :: withoutSemicolons opened ls
      else withoutSemicolons opened ls
    else l :: withoutSemicolons (l.symbol.openedBy opened) ls

/-- Leave out the commas before closing braces. -/
def withoutLastCommas : List Lexeme → List Lexeme
  | [] => []
  | l :: ls =>
    if l.symbol = .comma ∧ ls.head?.map Lexeme.symbol = some .rightBrace then withoutLastCommas ls
    else l :: withoutLastCommas ls

/-- A number as its value, and everything else as it is. -/
def Lexeme.reading (l : Lexeme) : Lexeme ⊕ Option Double :=
  if l.symbol = .number then .inr (Numeral.value? (l.value.getD "")) else .inl l

/-- The canonical form of lexemes with something open before them. -/
def canonicalIn (opened : List Bracket) (ls : List Lexeme) : List (Lexeme ⊕ Option Double) :=
  (withoutLastCommas (withoutSemicolons opened ls)).map Lexeme.reading

def canonical (ls : List Lexeme) : List (Lexeme ⊕ Option Double) := canonicalIn [] ls

theorem canonicalIn_cons {l : Lexeme} (hsemicolon : l.symbol ≠ .semicolon)
    (hcomma : l.symbol ≠ .comma) (opened : List Bracket) (ls : List Lexeme) :
    canonicalIn opened (l :: ls) = l.reading :: canonicalIn (l.symbol.openedBy opened) ls := by
  rw [canonicalIn, withoutSemicolons, if_neg hsemicolon, withoutLastCommas,
    if_neg fun h => hcomma h.1, List.map_cons, canonicalIn]

theorem canonicalIn_semicolon {l : Lexeme} (h : l.symbol = .semicolon) {opened : List Bracket}
    (hopened : opened.head? ≠ some .table) (ls : List Lexeme) :
    canonicalIn opened (l :: ls) = canonicalIn opened ls := by
  rw [canonicalIn, withoutSemicolons, if_pos h, if_neg hopened, canonicalIn]

/-- A comma, or what stands for one in a table. -/
theorem canonicalIn_separator {l m : Lexeme} {opened : List Bracket}
    (h : l = { symbol := .comma } ∨ l = { symbol := .semicolon } ∧ opened.head? = some .table)
    (hm : m.symbol ≠ .semicolon) (ls : List Lexeme) :
    canonicalIn opened (l :: m :: ls) =
      if m.symbol = .rightBrace then canonicalIn opened (m :: ls)
      else .inl { symbol := .comma } :: canonicalIn opened (m :: ls) := by
  have hcomma : withoutSemicolons opened (l :: m :: ls) =
      { symbol := .comma } :: withoutSemicolons opened (m :: ls) := by
    rcases h with rfl | ⟨rfl, hopened⟩
    · rw [withoutSemicolons, if_neg (by decide)]
      rfl
    · rw [withoutSemicolons, if_pos rfl, if_pos hopened]
  have hhead : (withoutSemicolons opened (m :: ls)).head?.map Lexeme.symbol = some m.symbol := by
    rw [withoutSemicolons, if_neg hm]
    rfl
  rw [canonicalIn, hcomma, withoutLastCommas, hhead]
  simp only [true_and, Option.some.injEq]
  split
  · rfl
  · rw [List.map_cons]
    rfl

/-! ## Words with one canonical form -/

/-- A letter has a text of its own if and only if its symbol carries one. -/
def Exact (u : List Letter) : Prop := ∀ c ∈ u, c.value.isSome = c.symbol.carriesText

/-- All words of a language have the same canonical form, whatever comes behind, and leave the
same open. -/
def Canonical (opened : List Bracket) (L : Language Letter) (left : List Bracket) : Prop :=
  ∃ x, ∀ u ∈ L, Exact u → ∀ ls,
    canonicalIn opened (u.map Letter.toLexeme ++ ls) = x ++ canonicalIn left ls

namespace Canonical

variable {o o' o'' : List Bracket} {L M : Language Letter}

theorem head?_block : (Bracket.block :: o).head? ≠ some .table := by rintro ⟨⟩

theorem one : Canonical o 1 o := by
  refine ⟨[], fun u hu _ ls => ?_⟩
  rw [(Language.mem_one u).1 hu]
  rfl

theorem mul (hL : Canonical o L o') (hM : Canonical o' M o'') : Canonical o (L * M) o'' := by
  obtain ⟨x, hx⟩ := hL
  obtain ⟨y, hy⟩ := hM
  refine ⟨x ++ y, fun w hw hexact ls => ?_⟩
  obtain ⟨u, hu, v, hv, rfl⟩ := Language.mem_mul.1 hw
  have hexact := List.forall_mem_append.1 hexact
  rw [List.map_append, List.append_assoc, hx u hu hexact.1, hy v hv hexact.2, List.append_assoc]

theorem zero : Canonical o 0 o' := ⟨[], fun u hu => absurd hu (Language.notMem_zero u)⟩

/-- Letters that are all read in one way. -/
theorem letter {p : Letter → Prop} {s : Symbol} {r : Lexeme ⊕ Option Double}
    (hs : s ≠ .semicolon ∧ s ≠ .comma)
    (h : ∀ c, p c → c.value.isSome = c.symbol.carriesText →
      c.symbol = s ∧ c.toLexeme.reading = r) :
    Canonical o (Spelling.letter p) (s.openedBy o) := by
  refine ⟨[r], fun u hu hexact ls => ?_⟩
  obtain ⟨c, hc, rfl⟩ := hu
  obtain ⟨rfl, rfl⟩ := h c hc (hexact c (List.mem_singleton_self c))
  exact canonicalIn_cons hs.1 hs.2 o ls

/-- A symbol that is no class of texts has nothing but itself. -/
theorem toLexeme_eq {c : Letter} {s : Symbol} (hc : c.symbol = s)
    (hexact : c.value.isSome = c.symbol.carriesText) (hs : s.carriesText = false) :
    c.toLexeme = { symbol := s } := by
  obtain ⟨⟨symbol, value⟩, joined⟩ := c
  cases hc
  rw [hs] at hexact
  cases value with
  | none => rfl
  | some text => cases hexact

/-- A keyword or punctuation other than separators. -/
theorem symbol (s : Symbol)
    (h : (s == .semicolon || s == .comma || s.carriesText) = false := by rfl) :
    Canonical o (Spelling.symbol s) (s.openedBy o) := by
  simp only [Bool.or_eq_false_iff, beq_eq_false_iff_ne] at h
  exact letter h.1 fun _ hc hexact => ⟨hc, congrArg Lexeme.reading (toLexeme_eq hc hexact h.2)⟩

/-- A letter that carries a text has its symbol and this text. -/
theorem toLexeme_eq_of_content {c : Letter} {s : Symbol} {text : String} (hs : c.symbol = s)
    (hc : c.content = text) (hexact : c.value.isSome = true) :
    c.toLexeme = { symbol := s, value := some text } := by
  obtain ⟨⟨symbol, value⟩, joined⟩ := c
  obtain ⟨value, rfl⟩ := Option.isSome_iff_exists.1 hexact
  cases hs
  cases hc
  rfl

theorem name (n : Name) : Canonical o (Spelling.name n) o := by
  refine letter (s := .name) (r := .inl { symbol := .name, value := some n.text }) (by decide) ?_
  rintro c ⟨hs, hc⟩ hexact
  refine ⟨hs, ?_⟩
  rw [Lexeme.reading, if_neg (by rw [hs]; decide)]
  rw [hs] at hexact
  exact congrArg Sum.inl (toLexeme_eq_of_content hs hc hexact)

theorem string (text : String) : Canonical o (Spelling.string text) o := by
  refine letter (s := .string) (r := .inl { symbol := .string, value := some text }) (by decide) ?_
  rintro c ⟨hs, hc⟩ hexact
  refine ⟨hs, ?_⟩
  rw [Lexeme.reading, if_neg (by rw [hs]; decide)]
  rw [hs] at hexact
  exact congrArg Sum.inl (toLexeme_eq_of_content hs hc hexact)

/-- However a number is written, it is read as its value. -/
theorem number (value : Double) : Canonical o (Spelling.number value) o := by
  refine letter (s := .number) (r := .inr (some value)) (by decide) ?_
  rintro c ⟨hs, hc⟩ -
  refine ⟨hs, ?_⟩
  rw [Lexeme.reading, if_pos hs]
  exact congrArg Sum.inr hc

/-- Semicolons between statements are left out. -/
theorem semicolons (ho : o.head? ≠ some .table) (hL : L ≤ Spelling.semicolons) :
    Canonical o L o := by
  refine ⟨[], fun u hu hexact ls => ?_⟩
  obtain ⟨us, rfl, hus⟩ := Language.mem_kstar.1 (hL hu)
  clear hu hexact
  induction us with
  | nil => rfl
  | cons w us ih =>
    obtain ⟨c, hc, rfl⟩ := hus w List.mem_cons_self
    exact (canonicalIn_semicolon hc ho _).trans
      (ih fun v hv => hus v (List.mem_cons_of_mem _ hv))

/-! ### Separators -/

/-- What stands for a comma in front of more. -/
def Separates (o : List Bracket) (c : Letter) : Prop :=
  c.toLexeme = { symbol := .comma } ∨
    c.toLexeme = { symbol := .semicolon } ∧ o.head? = some .table

theorem separates_of_comma {c : Letter} (hc : c.symbol = .comma)
    (hexact : c.value.isSome = c.symbol.carriesText) : Separates o c :=
  .inl (toLexeme_eq hc hexact rfl)

/-- A separator is a comma in front of what goes on with a list. -/
theorem separated {L : Language Letter}
    (hL : ∀ u ∈ L, Exact u → ∃ c, u = [c] ∧ Separates o c)
    (hb : Begins M fun s => s ≠ .eof ∧ s ≠ .semicolon ∧ s ≠ .rightBrace)
    (hM : Canonical o M o') : Canonical o (L * M) o' := by
  obtain ⟨x, hx⟩ := hM
  refine ⟨.inl { symbol := .comma } :: x, fun w hw hexact ls => ?_⟩
  obtain ⟨u, hu, v, hv, rfl⟩ := Language.mem_mul.1 hw
  have hexact := List.forall_mem_append.1 hexact
  obtain ⟨c, rfl, hc⟩ := hL u hu hexact.1
  have hhead := hb v hv
  show canonicalIn o (c.toLexeme :: (v.map Letter.toLexeme ++ ls)) =
    .inl { symbol := .comma } :: (x ++ canonicalIn o' ls)
  rw [← hx v hv hexact.2 ls]
  cases v with
  | nil => exact absurd rfl hhead.1
  | cons d v =>
    refine (canonicalIn_separator hc hhead.2.1 _).trans ?_
    exact if_neg hhead.2.2

theorem comma (hb : Begins M fun s => s ≠ .eof ∧ s ≠ .semicolon ∧ s ≠ .rightBrace)
    (hM : Canonical o M o') : Canonical o (Spelling.symbol .comma * M) o' := by
  refine separated ?_ hb hM
  rintro u ⟨c, hc, rfl⟩ hexact
  exact ⟨c, rfl, separates_of_comma hc (hexact c (List.mem_singleton_self c))⟩

theorem exists_of_fieldSeparator {u : List Letter} (hu : u ∈ Spelling.fieldSeparator)
    (hexact : Exact u) : ∃ c, u = [c] ∧ Separates (.table :: o) c := by
  rcases (Language.mem_add _ _ _).1 hu with ⟨c, hc, rfl⟩ | ⟨c, hc, rfl⟩
  · exact ⟨c, rfl, separates_of_comma hc (hexact c (List.mem_singleton_self c))⟩
  · exact ⟨c, rfl, .inr ⟨toLexeme_eq hc (hexact c (List.mem_singleton_self c)) rfl, rfl⟩⟩

/-- A separator before a closing brace is left out. -/
theorem closing :
    Canonical (.table :: o) ((1 + Spelling.fieldSeparator) * Spelling.symbol .rightBrace) o := by
  refine ⟨[.inl { symbol := .rightBrace }], fun w hw hexact ls => ?_⟩
  obtain ⟨u, hu, v, hv, rfl⟩ := Language.mem_mul.1 hw
  obtain ⟨d, hd, rfl⟩ := hv
  have hexact := List.forall_mem_append.1 hexact
  have hbrace := toLexeme_eq hd (hexact.2 d (List.mem_singleton_self d)) rfl
  have hclose : canonicalIn (.table :: o) (d.toLexeme :: ls) =
      [.inl { symbol := .rightBrace }] ++ canonicalIn o ls := by
    rw [hbrace, canonicalIn_cons (by decide) (by decide)]
    rfl
  rcases (Language.mem_add _ _ _).1 hu with hu | hu
  · rw [(Language.mem_one u).1 hu]
    exact hclose
  · obtain ⟨c, rfl, hc⟩ := exists_of_fieldSeparator hu hexact.1
    refine (canonicalIn_separator hc ?_ ls).trans ?_
    · rw [hbrace]
      decide
    · rw [if_pos (by rw [hbrace])]
      exact hclose

/-! ### Names -/

theorem begins_item_name (n : Name) :
    Begins (Spelling.name n) fun s => s ≠ .eof ∧ s ≠ .semicolon ∧ s ≠ .rightBrace := by
  rw [← mul_one (Spelling.name n)]
  exact .name (by decide)

theorem series_name {x : Symbol}
    (hx : ∀ n, Canonical o (Spelling.symbol x * Spelling.name n) o) (ns : List Name) :
    Canonical o (Spelling.series x Spelling.name ns) o := by
  induction ns with
  | nil => exact one
  | cons n ns ih => exact (hx n).mul ih

theorem list_name {x : Symbol} (hx : ∀ n, Canonical o (Spelling.symbol x * Spelling.name n) o)
    (ns : List Name) : Canonical o (Spelling.list x Spelling.name ns) o := by
  cases ns with
  | nil => exact zero
  | cons n ns => exact (name n).mul (series_name hx ns)

theorem names (ns : List Name) : Canonical o (Spelling.names ns) o :=
  list_name (fun n => comma (begins_item_name n) (name n)) ns

theorem path (ns : List Name) : Canonical o (Spelling.path ns) o :=
  list_name (fun n => (symbol .dot).mul (name n)) ns

theorem functionName (f : FunctionName) : Canonical o (Spelling.functionName f) o := by
  unfold Spelling.functionName
  split
  · split
    · exact zero
    · exact ((path _).mul (symbol .colon)).mul (name _)
  · exact path _

theorem parameters (ns : List Name) (hasVarargs : Bool) :
    Canonical o (Spelling.parameters ns hasVarargs) o := by
  unfold Spelling.parameters
  split
  · exact one
  · exact symbol .ellipsis
  · exact names _
  · rw [mul_assoc]
    refine (names _).mul (comma ?_ (symbol .ellipsis))
    rw [← mul_one (Spelling.symbol .ellipsis)]
    exact .symbol (by decide)

/-! ### Nodes -/

theorem begins_item_expression (e : Expression) :
    Begins (Spelling.expression e) fun s => s ≠ .eof ∧ s ≠ .semicolon ∧ s ≠ .rightBrace := by
  rw [← mul_one (Spelling.expression e)]
  refine (begins_expression e 1).mono fun s hs => ⟨?_, ?_, ?_⟩ <;>
  · rintro rfl
    cases hs

theorem begins_item_target (v : Variable) :
    Begins (Spelling.target v) fun s => s ≠ .eof ∧ s ≠ .semicolon ∧ s ≠ .rightBrace := by
  rw [← mul_one (Spelling.target v)]
  refine (begins_target v 1).mono fun s hs => ?_
  rcases hs with rfl | ⟨rfl, -⟩ <;> decide

theorem begins_item_field (f : Field) :
    Begins (Spelling.field f) fun s => s ≠ .eof ∧ s ≠ .semicolon ∧ s ≠ .rightBrace := by
  cases f with
  | keyed key value span =>
    simp only [Spelling.field, mul_assoc]
    exact .symbol (by decide)
  | named n value span =>
    simp only [Spelling.field, mul_assoc]
    exact .name (by decide)
  | positional value =>
    rw [Spelling.field]
    exact begins_item_expression value

theorem operator (op : BinaryOperator) : Canonical o (Spelling.symbol op.symbol) o := by
  cases op <;> exact symbol _

theorem unaryOperator (op : UnaryOperator) : Canonical o (Spelling.symbol op.symbol) o := by
  cases op <;> exact symbol _

mutual

theorem block (b : Block) {o : List Bracket} (ho : o.head? ≠ some .table) :
    Canonical o (Spelling.block b) o :=
  match b with
  | ⟨ss, _⟩ => by
    rw [Spelling.block]
    exact (semicolons ho le_rfl).mul (statements none ss ho)

theorem statements (before : Option Statement) (ss : List Statement) {o : List Bracket}
    (ho : o.head? ≠ some .table) : Canonical o (Spelling.statements before ss) o :=
  match ss with
  | [] => by
    rw [Spelling.statements]
    exact one
  | s :: ss => by
    rw [Spelling.statements]
    have hsemicolon : Spelling.symbol .semicolon ≤ Spelling.semicolons := le_kstar
    refine (((semicolons ho ?_).mul (statement s)).mul (semicolons ho ?_)).mul
      (statements (some s) ss ho)
    · unfold Spelling.separation
      split
      · exact hsemicolon
      · exact Spelling.one_le_semicolons
    · unfold Spelling.trail
      split
      · exact add_le Spelling.one_le_semicolons hsemicolon
      · exact le_rfl

theorem statement (s : Statement) {o : List Bracket} :
    Canonical o (Spelling.statement s) o :=
  match s with
  | .assign vs es _ => by
    rw [Spelling.statement]
    exact ((targets vs).mul (symbol .assign)).mul (expressions es)
  | .localAssign ns es _ => by
    rw [Spelling.statement]
    exact ((symbol .kwLocal).mul (names ns)).mul (assigned es)
  | .call c => by
    rw [Spelling.statement]
    exact call c
  | .doBlock b _ => by
    rw [Spelling.statement]
    exact ((symbol .kwDo).mul (block b head?_block)).mul (symbol .kwEnd)
  | .whileLoop e b _ => by
    rw [Spelling.statement]
    exact ((((symbol .kwWhile).mul (expression e)).mul (symbol .kwDo)).mul
      (block b head?_block)).mul (symbol .kwEnd)
  | .repeatLoop b e _ => by
    rw [Spelling.statement]
    exact (((symbol .kwRepeat).mul (block b head?_block)).mul (symbol .kwUntil)).mul
      (expression e)
  | .conditional cs b _ => by
    rw [Spelling.statement]
    exact ((clauses cs).mul (otherwise b)).mul (symbol .kwEnd)
  | .numericFor n start limit e b _ => by
    rw [Spelling.statement, mul_assoc (_ * _) (Spelling.symbol .comma)]
    exact (((((((((symbol .kwFor).mul (name n)).mul (symbol .assign)).mul (expression start)).mul
      (comma (begins_item_expression limit) (expression limit))).mul (step e)).mul
      (symbol .kwDo)).mul (block b head?_block)).mul (symbol .kwEnd))
  | .genericFor ns es b _ => by
    rw [Spelling.statement]
    exact ((((((symbol .kwFor).mul (names ns)).mul (symbol .kwIn)).mul (expressions es)).mul
      (symbol .kwDo)).mul (block b head?_block)).mul (symbol .kwEnd)
  | .function f body _ => by
    rw [Spelling.statement]
    exact ((symbol .kwFunction).mul (functionName f)).mul (functionBody body)
  | .localFunction n body _ => by
    rw [Spelling.statement]
    exact (((symbol .kwLocal).mul (symbol .kwFunction)).mul (name n)).mul (functionBody body)
  | .label n _ => by
    rw [Spelling.statement]
    exact ((symbol .doubleColon).mul (name n)).mul (symbol .doubleColon)
  | .jump n _ => by
    rw [Spelling.statement]
    exact (symbol .kwGoto).mul (name n)
  | .returnValues es _ => by
    rw [Spelling.statement]
    exact (symbol .kwReturn).mul (values es)
  | .breakLoop _ => by
    rw [Spelling.statement]
    exact symbol .kwBreak

theorem assigned (es : List Expression) {o : List Bracket} :
    Canonical o (Spelling.assigned es) o :=
  match es with
  | [] => by
    rw [Spelling.assigned]
    exact one
  | e :: es => by
    rw [Spelling.assigned]
    exact ((symbol .assign).mul (expression e)).mul (moreExpressions es)

theorem step (e : Option Expression) {o : List Bracket} : Canonical o (Spelling.step e) o :=
  match e with
  | none => by
    rw [Spelling.step]
    exact one
  | some e => by
    rw [Spelling.step]
    exact comma (begins_item_expression e) (expression e)

theorem otherwise (b : Option Block) {o : List Bracket} :
    Canonical (.block :: o) (Spelling.otherwise b) (.block :: o) :=
  match b with
  | none => by
    rw [Spelling.otherwise]
    exact one
  | some b => by
    rw [Spelling.otherwise]
    exact (symbol .kwElse).mul (block b head?_block)

/-- The block that `if` opens is still open behind the clauses. -/
theorem clauses (cs : List Clause) {o : List Bracket} :
    Canonical o (Spelling.clauses cs) (.block :: o) :=
  match cs with
  | [] => by
    rw [Spelling.clauses]
    exact zero
  | c :: cs => by
    rw [Spelling.clauses]
    exact ((symbol .kwIf).mul (clause c)).mul (moreClauses cs)

theorem moreClauses (cs : List Clause) {o : List Bracket} :
    Canonical (.block :: o) (Spelling.moreClauses cs) (.block :: o) :=
  match cs with
  | [] => by
    rw [Spelling.moreClauses]
    exact one
  | c :: cs => by
    rw [Spelling.moreClauses]
    exact ((symbol .kwElseif).mul (clause c)).mul (moreClauses cs)

theorem clause (c : Clause) {o : List Bracket} :
    Canonical (.block :: o) (Spelling.clause c) (.block :: o) :=
  match c with
  | ⟨e, b, _⟩ => by
    rw [Spelling.clause]
    exact ((expression e).mul (symbol .kwThen)).mul (block b head?_block)

/-- The block that `function` opens is closed with the body. -/
theorem functionBody (f : FunctionBody) {o : List Bracket} :
    Canonical (.block :: o) (Spelling.functionBody f) o :=
  match f with
  | ⟨ns, hasVarargs, b, _⟩ => by
    rw [Spelling.functionBody]
    exact ((((symbol .leftParen).mul (parameters ns hasVarargs)).mul (symbol .rightParen)).mul
      (block b head?_block)).mul (symbol .kwEnd)

theorem expression (e : Expression) {o : List Bracket} :
    Canonical o (Spelling.expression e) o :=
  match e with
  | .nil _ => by
    rw [Spelling.expression]
    exact symbol .kwNil
  | .boolean value _ => by
    rw [Spelling.expression]
    cases value <;> exact symbol _
  | .number value _ => by
    rw [Spelling.expression]
    exact number value
  | .string value _ => by
    rw [Spelling.expression]
    exact string value
  | .varargs _ => by
    rw [Spelling.expression]
    exact symbol .ellipsis
  | .function body _ => by
    rw [Spelling.expression]
    exact (symbol .kwFunction).mul (functionBody body)
  | .primary p => by
    rw [Spelling.expression]
    exact primary p
  | .table t => by
    rw [Spelling.expression]
    exact table t
  | .binary op left right _ => by
    rw [Spelling.expression]
    exact ((expression left).mul (operator op)).mul (expression right)
  | .unary op operand _ => by
    rw [Spelling.expression]
    exact (unaryOperator op).mul (expression operand)

theorem expressions (es : List Expression) {o : List Bracket} :
    Canonical o (Spelling.expressions es) o :=
  match es with
  | [] => by
    rw [Spelling.expressions]
    exact zero
  | e :: es => by
    rw [Spelling.expressions]
    exact (expression e).mul (moreExpressions es)

theorem values (es : List Expression) {o : List Bracket} :
    Canonical o (Spelling.values es) o :=
  match es with
  | [] => by
    rw [Spelling.values]
    exact one
  | e :: es => by
    rw [Spelling.values]
    exact (expression e).mul (moreExpressions es)

theorem moreExpressions (es : List Expression) {o : List Bracket} :
    Canonical o (Spelling.moreExpressions es) o :=
  match es with
  | [] => by
    rw [Spelling.moreExpressions]
    exact one
  | e :: es => by
    rw [Spelling.moreExpressions]
    exact (comma (begins_item_expression e) (expression e)).mul (moreExpressions es)

theorem primary (p : Primary) {o : List Bracket} : Canonical o (Spelling.primary p) o :=
  match p with
  | .var v => by
    rw [Spelling.primary]
    exact target v
  | .call c => by
    rw [Spelling.primary]
    exact call c
  | .parenthesized e _ => by
    rw [Spelling.primary]
    exact ((symbol .leftParen).mul (expression e)).mul (symbol .rightParen)

theorem target (v : Variable) {o : List Bracket} : Canonical o (Spelling.target v) o :=
  match v with
  | .name n => by
    rw [Spelling.target]
    exact name n
  | .index base key _ => by
    rw [Spelling.target]
    exact (((primary base).mul (symbol .leftBracket)).mul (expression key)).mul (symbol .rightBracket)
  | .member base n _ => by
    rw [Spelling.target]
    exact ((primary base).mul (symbol .dot)).mul (name n)

theorem targets (vs : List Variable) {o : List Bracket} :
    Canonical o (Spelling.targets vs) o :=
  match vs with
  | [] => by
    rw [Spelling.targets]
    exact zero
  | v :: vs => by
    rw [Spelling.targets]
    exact (target v).mul (moreTargets vs)

theorem moreTargets (vs : List Variable) {o : List Bracket} :
    Canonical o (Spelling.moreTargets vs) o :=
  match vs with
  | [] => by
    rw [Spelling.moreTargets]
    exact one
  | v :: vs => by
    rw [Spelling.moreTargets]
    exact (comma (begins_item_target v) (target v)).mul (moreTargets vs)

theorem call (c : Call) {o : List Bracket} : Canonical o (Spelling.call c) o :=
  match c with
  | .function callee args _ => by
    rw [Spelling.call]
    exact (primary callee).mul (arguments args)
  | .method receiver n args _ => by
    rw [Spelling.call]
    exact (((primary receiver).mul (symbol .colon)).mul (name n)).mul (arguments args)

theorem arguments (a : Arguments) {o : List Bracket} : Canonical o (Spelling.arguments a) o :=
  match a with
  | .list es _ => by
    rw [Spelling.arguments]
    have hopening : Canonical o Spelling.argumentParen o :=
      letter (s := .leftParen) (by decide) fun c hc hexact =>
        ⟨hc.1, congrArg Lexeme.reading (toLexeme_eq hc.1 hexact rfl)⟩
    exact (hopening.mul (values es)).mul (symbol .rightParen)
  | .table t => by
    rw [Spelling.arguments]
    exact table t
  | .string value _ => by
    rw [Spelling.arguments]
    exact string value

theorem table (t : Table) {o : List Bracket} : Canonical o (Spelling.table t) o :=
  match t with
  | ⟨fs, _⟩ => by
    rw [Spelling.table, mul_assoc]
    exact (symbol .leftBrace).mul (fields fs)

/-- The fields of a table up to its closing brace. -/
theorem fields (fs : List Field) {o : List Bracket} :
    Canonical (.table :: o) (Spelling.fields fs * Spelling.symbol .rightBrace) o :=
  match fs with
  | [] => by
    rw [Spelling.fields, one_mul]
    exact symbol .rightBrace
  | f :: fs => by
    rw [Spelling.fields, mul_assoc]
    exact (field f).mul (moreFields fs)

theorem moreFields (fs : List Field) {o : List Bracket} :
    Canonical (.table :: o) (Spelling.moreFields fs * Spelling.symbol .rightBrace) o :=
  match fs with
  | [] => by
    rw [Spelling.moreFields]
    exact closing
  | f :: fs => by
    rw [Spelling.moreFields, mul_assoc]
    exact (separated (fun _ => exists_of_fieldSeparator) (begins_item_field f) (field f)).mul
      (moreFields fs)

theorem field (f : Field) {o : List Bracket} : Canonical o (Spelling.field f) o :=
  match f with
  | .keyed key value _ => by
    rw [Spelling.field]
    exact ((((symbol .leftBracket).mul (expression key)).mul (symbol .rightBracket)).mul
      (symbol .assign)).mul (expression value)
  | .named n value _ => by
    rw [Spelling.field]
    exact ((name n).mul (symbol .assign)).mul (expression value)
  | .positional value => by
    rw [Spelling.field]
    exact expression value

end

end Canonical

end LuaSource
