-- SUMMARY: The words that spell a tree: its grammar, given by what each node is written as.
import LuaSource.Tree
import LuaSource.Proofs.Grammar.Letter

/-!
# Spelling

A tree is spelled by the words of a language, which is put together along the tree: the words
for a node are those for its parts in order, with its keywords and punctuation between them.
Spans play no part. A tree that no source can have, such as an assignment without a target,
is spelled by no word.
-/

namespace LuaSource

open Computability

/-! ## What a parenthesis would go on with -/

/-- Whether an expression ends with a name, a call, an index or the like, which a parenthesis
behind it would go on with. -/
def Expression.endsOpen : Expression → Bool
  | .primary _ => true
  | .binary _ _ right _ => right.endsOpen
  | .unary _ operand _ => operand.endsOpen
  | _ => false

/-- Whether what a statement ends with is such an expression. -/
def Statement.endsOpen : Statement → Bool
  | .assign _ values _ | .localAssign _ values _ => values.getLast?.any Expression.endsOpen
  | .call _ => true
  | .repeatLoop _ condition _ => condition.endsOpen
  | _ => false

namespace Spelling

/-! ## Letters -/

/-- The words of one letter that has a property. -/
def letter (p : Letter → Prop) : Language Letter := {u | ∃ c, p c ∧ u = [c]}

def symbol (s : Symbol) : Language Letter := letter (·.symbol = s)

def name (n : Name) : Language Letter := letter fun c => c.symbol = .name ∧ c.content = n.text

def number (value : Double) : Language Letter :=
  letter fun c => c.symbol = .number ∧ Numeral.value? c.content = some value

def string (value : String) : Language Letter :=
  letter fun c => c.symbol = .string ∧ c.content = value

/-- The parenthesis that opens arguments, which has to stand on the line on which the callee
ends. -/
def argumentParen : Language Letter := letter fun c => c.symbol = .leftParen ∧ c.joined = true

/-- Items that each have a separator before them. -/
def series {α : Type} (separator : Symbol) (item : α → Language Letter) :
    List α → Language Letter
  | [] => 1
  | a :: as => symbol separator * item a * series separator item as

/-- One item or more, with separators between them. -/
def list {α : Type} (separator : Symbol) (item : α → Language Letter) :
    List α → Language Letter
  | [] => 0
  | a :: as => item a * series separator item as

/-! ## Names -/

def names (ns : List Name) : Language Letter := list .comma name ns

def path (ns : List Name) : Language Letter := list .dot name ns

/-- A method is named by a path, a colon and one name more. -/
def functionName (f : FunctionName) : Language Letter :=
  if f.isMethod then
    match f.path.getLast? with
    | none => 0
    | some method => path f.path.dropLast * symbol .colon * name method
  else path f.path

theorem functionName_function (ns : List Name) (span : Span) :
    functionName ⟨ns, false, span⟩ = path ns := by
  rw [functionName, if_neg Bool.false_ne_true]

theorem functionName_method (ns : List Name) (method : Name) (span : Span) :
    functionName ⟨ns ++ [method], true, span⟩ = path ns * symbol .colon * name method := by
  simp [functionName]

def parameters (ns : List Name) (hasVarargs : Bool) : Language Letter :=
  match ns, hasVarargs with
  | [], false => 1
  | [], true => symbol .ellipsis
  | n :: ns, false => names (n :: ns)
  | n :: ns, true => names (n :: ns) * symbol .comma * symbol .ellipsis

/-! ## Separators -/

/-- What separates two fields of a table. -/
def fieldSeparator : Language Letter := symbol .comma + symbol .semicolon

def semicolons : Language Letter := (symbol .semicolon)∗

/-- A semicolon has to stand before a statement that begins with a parenthesis, if the statement
before it would take the parenthesis for its own. -/
def separation (before : Option Statement) (s : Statement) : Language Letter :=
  if before.any Statement.endsOpen && s.startsWithParen then symbol .semicolon else 1

/-- Any number of semicolons may stand behind a statement, but at most one behind a `return` or
a `break`. -/
def trail (s : Statement) : Language Letter :=
  if s.isLast then 1 + symbol .semicolon else semicolons

/-! ## Nodes -/

mutual

def block : Block → Language Letter
  | ⟨ss, _⟩ => semicolons * statements none ss

/-- Statements behind another one, if there is one before them in their block. -/
def statements (before : Option Statement) : List Statement → Language Letter
  | [] => 1
  | s :: ss => separation before s * statement s * trail s * statements (some s) ss

def statement : Statement → Language Letter
  | .assign vs es _ => targets vs * symbol .assign * expressions es
  | .localAssign ns es _ => symbol .kwLocal * names ns * assigned es
  | .call c => call c
  | .doBlock b _ => symbol .kwDo * block b * symbol .kwEnd
  | .whileLoop e b _ =>
    symbol .kwWhile * expression e * symbol .kwDo * block b * symbol .kwEnd
  | .repeatLoop b e _ => symbol .kwRepeat * block b * symbol .kwUntil * expression e
  | .conditional cs b _ => clauses cs * otherwise b * symbol .kwEnd
  | .numericFor n start limit e b _ =>
    symbol .kwFor * name n * symbol .assign * expression start * symbol .comma *
      expression limit * step e * symbol .kwDo * block b * symbol .kwEnd
  | .genericFor ns es b _ =>
    symbol .kwFor * names ns * symbol .kwIn * expressions es * symbol .kwDo * block b *
      symbol .kwEnd
  | .function f body _ => symbol .kwFunction * functionName f * functionBody body
  | .localFunction n body _ =>
    symbol .kwLocal * symbol .kwFunction * name n * functionBody body
  | .label n _ => symbol .doubleColon * name n * symbol .doubleColon
  | .jump n _ => symbol .kwGoto * name n
  | .returnValues es _ => symbol .kwReturn * values es
  | .breakLoop _ => symbol .kwBreak

/-- The values of local variables, which may be missing. -/
def assigned : List Expression → Language Letter
  | [] => 1
  | e :: es => symbol .assign * expression e * moreExpressions es

def step : Option Expression → Language Letter
  | none => 1
  | some e => symbol .comma * expression e

def otherwise : Option Block → Language Letter
  | none => 1
  | some b => symbol .kwElse * block b

/-- One clause or more. -/
def clauses : List Clause → Language Letter
  | [] => 0
  | c :: cs => symbol .kwIf * clause c * moreClauses cs

/-- Clauses behind a first one. -/
def moreClauses : List Clause → Language Letter
  | [] => 1
  | c :: cs => symbol .kwElseif * clause c * moreClauses cs

def clause : Clause → Language Letter
  | ⟨e, b, _⟩ => expression e * symbol .kwThen * block b

def functionBody : FunctionBody → Language Letter
  | ⟨ns, hasVarargs, b, _⟩ =>
    symbol .leftParen * parameters ns hasVarargs * symbol .rightParen * block b * symbol .kwEnd

def expression : Expression → Language Letter
  | .nil _ => symbol .kwNil
  | .boolean value _ => symbol (if value then .kwTrue else .kwFalse)
  | .number value _ => number value
  | .string value _ => string value
  | .varargs _ => symbol .ellipsis
  | .function body _ => symbol .kwFunction * functionBody body
  | .primary p => primary p
  | .table t => table t
  | .binary op left right _ => expression left * symbol op.symbol * expression right
  | .unary op operand _ => symbol op.symbol * expression operand

/-- One expression or more. -/
def expressions : List Expression → Language Letter
  | [] => 0
  | e :: es => expression e * moreExpressions es

/-- Any number of expressions. -/
def values : List Expression → Language Letter
  | [] => 1
  | e :: es => expression e * moreExpressions es

/-- Expressions behind a first one. -/
def moreExpressions : List Expression → Language Letter
  | [] => 1
  | e :: es => symbol .comma * expression e * moreExpressions es

def primary : Primary → Language Letter
  | .var v => target v
  | .call c => call c
  | .parenthesized e _ => symbol .leftParen * expression e * symbol .rightParen

def target : Variable → Language Letter
  | .name n => name n
  | .index base key _ =>
    primary base * symbol .leftBracket * expression key * symbol .rightBracket
  | .member base n _ => primary base * symbol .dot * name n

/-- One target or more. -/
def targets : List Variable → Language Letter
  | [] => 0
  | v :: vs => target v * moreTargets vs

/-- Targets behind a first one. -/
def moreTargets : List Variable → Language Letter
  | [] => 1
  | v :: vs => symbol .comma * target v * moreTargets vs

def call : Call → Language Letter
  | .function callee args _ => primary callee * arguments args
  | .method receiver n args _ => primary receiver * symbol .colon * name n * arguments args

def arguments : Arguments → Language Letter
  | .list es _ => argumentParen * values es * symbol .rightParen
  | .table t => table t
  | .string value _ => string value

def table : Table → Language Letter
  | ⟨fs, _⟩ => symbol .leftBrace * fields fs * symbol .rightBrace

def fields : List Field → Language Letter
  | [] => 1
  | f :: fs => field f * moreFields fs

/-- Fields behind a first one. A separator may stand behind the last one too. -/
def moreFields : List Field → Language Letter
  | [] => 1 + fieldSeparator
  | f :: fs => fieldSeparator * field f * moreFields fs

def field : Field → Language Letter
  | .keyed key value _ =>
    symbol .leftBracket * expression key * symbol .rightBracket * symbol .assign *
      expression value
  | .named n value _ => name n * symbol .assign * expression value
  | .positional value => expression value

end

/-! ## Lists of nodes -/

theorem series_append {α : Type} (separator : Symbol) (item : α → Language Letter)
    (as bs : List α) :
    series separator item (as ++ bs) = series separator item as * series separator item bs := by
  induction as with
  | nil => rw [List.nil_append, series, one_mul]
  | cons a as ih => simp only [List.cons_append, series, ih, mul_assoc]

theorem series_concat {α : Type} (separator : Symbol) (item : α → Language Letter)
    (as : List α) (a : α) :
    series separator item (as ++ [a]) =
      series separator item as * symbol separator * item a := by
  rw [series_append, series, series, mul_one, mul_assoc]

theorem moreExpressions_eq (es : List Expression) :
    moreExpressions es = series .comma expression es := by
  induction es with
  | nil => rw [moreExpressions, series]
  | cons e es ih => rw [moreExpressions, series, ih]

theorem expressions_eq (es : List Expression) : expressions es = list .comma expression es := by
  cases es with
  | nil => rw [expressions, list]
  | cons e es => rw [expressions, list, moreExpressions_eq]

theorem moreTargets_eq (vs : List Variable) : moreTargets vs = series .comma target vs := by
  induction vs with
  | nil => rw [moreTargets, series]
  | cons v vs ih => rw [moreTargets, series, ih]

theorem moreClauses_eq (cs : List Clause) : moreClauses cs = series .kwElseif clause cs := by
  induction cs with
  | nil => rw [moreClauses, series]
  | cons c cs ih => rw [moreClauses, series, ih]

theorem statements_concat (before : Option Statement) (ss : List Statement) (s : Statement) :
    statements before (ss ++ [s]) =
      statements before ss * separation (ss.getLast?.or before) s * statement s * trail s := by
  induction ss generalizing before with
  | nil => simp [statements]
  | cons t ss ih =>
    simp only [List.cons_append, statements, ih, mul_assoc, List.getLast?_cons, Option.some_or,
      Option.or_some]

/-! ## Semicolons -/

theorem semicolons_eq : semicolons = 1 + symbol .semicolon * semicolons :=
  (Language.one_add_self_mul_kstar_eq_kstar _).symm

theorem one_le_semicolons : 1 ≤ semicolons := one_le_kstar

theorem exists_semicolons {u : List Letter} {M : Language Letter} (h : u ∈ semicolons * M) :
    ∃ n, u ∈ symbol .semicolon ^ n * M := by
  rw [semicolons, Language.kstar_eq_iSup_pow, Language.iSup_mul] at h
  exact Set.mem_iUnion.1 h

theorem trail_of_open {s : Statement} (hs : s.isLast = false) : trail s = semicolons := by
  rw [trail, hs, if_neg Bool.false_ne_true]

/-- Nothing has to stand behind a statement. -/
theorem one_le_trail (s : Statement) : 1 ≤ trail s := by
  unfold trail
  split
  · exact fun _ hu => .inl hu
  · exact one_le_semicolons

theorem semicolons_mul_semicolon_le : semicolons * symbol .semicolon ≤ semicolons :=
  kstar_mul_le_kstar

theorem semicolons_mul_separation_le (before : Option Statement) (s : Statement) :
    semicolons * separation before s ≤ semicolons := by
  unfold separation
  split
  · exact semicolons_mul_semicolon_le
  · rw [mul_one]

/-- Behind a statement that others may follow, one more semicolon makes no difference. -/
theorem statements_mul_semicolon_le {ss : List Statement} (hss : ∀ s ∈ ss, s.isLast = false) :
    semicolons * statements none ss * symbol .semicolon ≤ semicolons * statements none ss := by
  rcases List.eq_nil_or_concat ss with rfl | ⟨ss, s, rfl⟩
  · rw [statements, mul_one]
    exact semicolons_mul_semicolon_le
  · rw [List.concat_eq_append, statements_concat, trail_of_open (hss s (by simp))]
    simp only [mul_assoc]
    gcongr
    exact semicolons_mul_semicolon_le

end Spelling

end LuaSource
