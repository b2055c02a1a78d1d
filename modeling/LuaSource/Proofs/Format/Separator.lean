-- SUMMARY: Which statements are written with a parenthesis first, and so need a semicolon.
import LuaSource.Format
import LuaSource.Proofs.Grammar.Letter
import LuaSource.Proofs.Lexeme.Written
import LuaSource.Proofs.Tree.Everywhere
import LuaSource.Proofs.Tree.Parens

/-!
# Separators

The semicolon before a line is decided on the tree, by what a statement starts with. The test is
exact: the text of a statement starts with a parenthesis if the test says so, and with another
character if it does not. Hence no line behind another one starts with a parenthesis.
-/

namespace LuaSource

/-- A word, which may be a keyword. -/
def IsWord (text : String) : Prop :=
  ∃ c cs, text.toList = c :: cs ∧ isNameStart c = true ∧ ∀ d ∈ cs, isNameContinue d = true

/-- Every name of a tree is a word. -/
def worded : Condition where
  name := fun n => IsWord n.text

namespace Layout

/-! ## First characters -/

/-- Pieces have a first character, which is a parenthesis just if `inParens` says so. -/
def ParenFirst (inParens : Bool) (ps : List Piece) : Prop :=
  ∃ c, (Piece.render ps).head? = some c ∧ (inParens = true ↔ c = '(')

theorem parenFirst_symbol {s : Symbol} (hs : s.isWritten = true) (k : List Piece) :
    ParenFirst (s == .leftParen) (.symbol s :: k) := by
  have hall : ∀ s ∈ Symbol.keywords ++ Symbol.punctuation,
      s.spelling.toList.head?.any (fun c => (s == .leftParen) == (c == '(')) = true := by
    decide
  obtain ⟨c, hc, hparen⟩ := (Option.any_eq_true _ _).1 (hall s (of_decide_eq_true hs))
  refine ⟨c, ?_, ?_⟩
  · rw [Piece.render_cons, Piece.text, List.head?_append, hc, Option.some_or]
  · rw [eq_of_beq hparen, beq_iff_eq]

theorem parenFirst_name {text : String} (h : IsWord text) (k : List Piece) :
    ParenFirst false (.name text :: k) := by
  obtain ⟨c, cs, htext, hc, -⟩ := h
  refine ⟨c, ?_, ?_⟩
  · rw [Piece.render_cons, Piece.text, htext, List.cons_append, List.head?_cons]
  · refine iff_of_false nofun ?_
    rintro rfl
    exact absurd hc (by decide)

/-! ## The left spine

The test and the text go down the same bases and callees, to a name or to parentheses. -/

section

variable (depth : Nat)

mutual

theorem parenFirst_primary (p : Primary) (h : Everywhere.primary worded p) (k : List Piece) :
    ParenFirst p.startsWithParen (primary depth (Parens.primary p) k) :=
  match p with
  | .var v => parenFirst_target v h k
  | .call c => parenFirst_call c h k
  | .parenthesized _ _ => parenFirst_symbol (by decide) _

theorem parenFirst_target (v : Variable) (h : Everywhere.target worded v) (k : List Piece) :
    ParenFirst v.startsWithParen (target depth (Parens.target v) k) :=
  match v with
  | .name _ => parenFirst_name h k
  | .index base _ _ => parenFirst_primary base h.1 _
  | .member base _ _ => parenFirst_primary base h.1 _

theorem parenFirst_call (c : Call) (h : Everywhere.call worded c) (k : List Piece) :
    ParenFirst c.startsWithParen (call depth (Parens.call c) k) :=
  match c with
  | .function callee _ _ => parenFirst_primary callee h.1 _
  | .method receiver _ _ _ => parenFirst_primary receiver h.1 _

end

/-! ## Statements -/

theorem parenFirst_statement (s : Statement) (h : Everywhere.statement worded s) (k : List Piece) :
    ParenFirst s.startsWithParen (statement depth (Parens.statement s) k) := by
  cases s with
  | assign vs es span =>
    cases vs with
    | nil => exact ⟨' ', rfl, iff_of_false nofun (by decide)⟩
    | cons v vs => exact parenFirst_target depth v h.2.1.1 _
  | call c => exact parenFirst_call depth c h.2 k
  | conditional cs otherwise span =>
    obtain _ | ⟨⟨condition, b, clauseSpan⟩, cs⟩ := cs
    -- what has no clause is written from its `else` or its `end` on
    · cases otherwise with
      | none => exact parenFirst_symbol (by decide) _
      | some b => exact parenFirst_symbol (by decide) _
    · exact parenFirst_symbol (by decide) _
  | localAssign | doBlock | whileLoop | repeatLoop | numericFor | genericFor | function
  | localFunction | label | jump | returnValues | breakLoop => exact parenFirst_symbol (by decide) _

/-- Behind another statement no line starts with a parenthesis. -/
theorem head_line_ne (s : Statement) (ss : List Statement) (h : Everywhere.statement worded s)
    (k : List Piece) :
    ∃ line c, statements depth false (Parens.statements (s :: ss)) k = .indent depth :: line ∧
      (Piece.render line).head? = some c ∧ c ≠ '(' := by
  rw [Parens.statements, statements, Parens.startsWithParen_statement]
  cases hs : s.startsWithParen with
  | true => exact ⟨_, ';', rfl, rfl, by decide⟩
  | false =>
    obtain ⟨c, hc, hparen⟩ := parenFirst_statement depth s h
      (.newline :: statements depth false (Parens.statements ss) k)
    refine ⟨_, c, rfl, hc, fun hopen => ?_⟩
    rw [hs] at hparen
    exact absurd (hparen.2 hopen) Bool.false_ne_true

/-- At every depth and whatever comes behind it, a statement is written with a first character,
which is a parenthesis just if the tree says that the statement starts with one. The tree that is
written has more parentheses, but says the same. -/
theorem startsWithParen_iff (s : Statement) (h : Everywhere.statement worded s) (k : List Piece) :
    (∃ c, (Piece.render (statement depth (Parens.statement s) k)).head? = some c ∧
      (s.startsWithParen = true ↔ c = '(')) ∧
    (Parens.statement s).startsWithParen = s.startsWithParen :=
  ⟨parenFirst_statement depth s h k, Parens.startsWithParen_statement s⟩

/-- The statement `(x)().x = nil`. -/
def parenthesizedTarget : Statement :=
  .assign
    [.member
      (.call (.function (.parenthesized (.primary (.var (.name ⟨"x", default⟩))) default)
        (.list [] default) default))
      ⟨"x", default⟩ default]
    [.nil default] default

theorem startsWithParen_iff_target :
    Everywhere.statement worded parenthesizedTarget ∧
      Piece.render (statement 1 (Parens.statement parenthesizedTarget) []) =
        "(x)().x = nil".toList ∧
      (∃ c, (Piece.render (statement 1 (Parens.statement parenthesizedTarget) [])).head? = some c ∧
        (parenthesizedTarget.startsWithParen = true ↔ c = '(')) ∧
      (Parens.statement parenthesizedTarget).startsWithParen =
        parenthesizedTarget.startsWithParen := by
  have hx : IsWord "x" := isName_x.1
  have hworded : Everywhere.statement worded parenthesizedTarget :=
    ⟨trivial, ⟨⟨⟨⟨trivial, hx⟩, trivial⟩, hx⟩, trivial⟩, ⟨trivial, trivial⟩, trivial⟩
  exact ⟨hworded, by rfl, startsWithParen_iff 1 parenthesizedTarget hworded []⟩

end

end Layout

end LuaSource
