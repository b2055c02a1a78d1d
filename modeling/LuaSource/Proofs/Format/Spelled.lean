-- SUMMARY: The layout of a tree is legible and spells the tree.
import LuaSource.Format
import LuaSource.Proofs.Format.Legible
import LuaSource.Proofs.Grammar.Beginnings
import LuaSource.Proofs.Tree.Conditions

/-!
# Layouts spell trees

A node that is laid out before other pieces adds one of the words that spell it to the word of
these pieces, and it does not run into them if they begin in the way they always do. The semicolon
that a line with a leading parenthesis gets is one that the grammar asks for or allows.
-/

namespace LuaSource

open Computability

/-! ## Pieces that spell a word -/

/-- The pieces are legible and write a word of `K`. -/
structure Piece.Spells (joined : Bool) (K : Language Letter) (ps : List Piece) : Prop where
  legible : Piece.Legible ps
  letters : Piece.letters joined ps ∈ K

/-- No piece in front runs into these, unless it is a number or a dot with a point behind it. -/
def Piece.Clear (ps : List Piece) : Prop := ∀ c ∈ (Piece.render ps).head?, isNameContinue c = false

namespace Piece.Spells

variable {joined : Bool} {K L : Language Letter} {ps : List Piece}

theorem mono (h : Spells joined K ps) (hKL : K ≤ L) : Spells joined L ps :=
  ⟨h.legible, hKL h.letters⟩

theorem space (h : Spells joined K ps) : Spells joined K (.space :: ps) := by
  refine ⟨⟨trivial, fun _ _ => rfl, h.legible⟩, ?_⟩
  have hletters : Piece.letters joined (.space :: ps) = Piece.letters (joined && true) ps := rfl
  rw [hletters, Bool.and_true]
  exact h.letters

theorem newline (h : Spells false K ps) : Spells joined K (.newline :: ps) := by
  refine ⟨⟨trivial, fun _ _ => rfl, h.legible⟩, ?_⟩
  have hletters : Piece.letters joined (.newline :: ps) = Piece.letters (joined && false) ps := rfl
  rw [hletters, Bool.and_false]
  exact h.letters

theorem indent {depth : Nat} (h : Spells joined K ps) : Spells joined K (.indent depth :: ps) := by
  refine ⟨⟨trivial, fun _ _ => rfl, h.legible⟩, ?_⟩
  have hnone : (Piece.text (.indent depth)).contains '\n' = false := by
    simp [Piece.text, List.mem_replicate]
  have hletters : Piece.letters joined (.indent depth :: ps) =
      Piece.letters (joined && !(Piece.text (.indent depth)).contains '\n') ps := rfl
  rw [hletters, hnone, Bool.not_false, Bool.and_true]
  exact h.letters

/-- A piece with a letter of its own. -/
theorem piece {p : Piece} {l : Lexeme} {P : Letter → Prop} (hl : p.lexeme? = some l)
    (hp : p.Writable) (hgo : ∀ c ∈ (Piece.render ps).head?, p.goesOn c = false)
    (hP : P { l with joined }) (h : Spells true K ps) :
    Spells joined (Spelling.letter P * K) (p :: ps) := by
  refine ⟨⟨hp, hgo, h.legible⟩, ?_⟩
  have hletter : [({ l with joined } : Letter)] ∈ Spelling.letter P := ⟨_, hP, rfl⟩
  rw [Piece.letters, hl]
  exact Language.append_mem_mul hletter h.letters

theorem symbol {s : Symbol} (hs : s.isWritten = true)
    (hgo : ∀ c ∈ (Piece.render ps).head?, s.goesOn c = false) (h : Spells true K ps) :
    Spells joined (Spelling.symbol s * K) (.symbol s :: ps) := .piece rfl hs hgo rfl h

/-- A symbol that no character goes on with. -/
theorem mark {s : Symbol} (hs : s.isWritten = true) (hgo : ∀ c, s.goesOn c = false)
    (h : Spells true K ps) : Spells joined (Spelling.symbol s * K) (.symbol s :: ps) :=
  .symbol hs (fun c _ => hgo c) h

theorem argumentParen (h : Spells true K ps) :
    Spells true (Spelling.argumentParen * K) (.symbol .leftParen :: ps) :=
  .piece rfl rfl (fun _ _ => rfl) ⟨rfl, rfl⟩ h

theorem name {n : Name} (hn : IsName n.text) (hclear : Clear ps) (h : Spells true K ps) :
    Spells joined (Spelling.name n * K) (.name n.text :: ps) :=
  .piece rfl hn hclear ⟨rfl, rfl⟩ h

theorem string {value : String} (h : Spells true K ps) :
    Spells joined (Spelling.string value * K) (.quoted value :: ps) :=
  .piece rfl trivial (fun _ _ => rfl) ⟨rfl, rfl⟩ h

theorem number {x : Double} (hx : x.Unsigned) (hnan : x.isNaN = false)
    (hend : Numeral.Ends (Piece.render ps)) (h : Spells true K ps) :
    Spells joined (Spelling.number x * K) (.number x :: ps) := by
  refine .piece rfl ⟨hx, hnan⟩ (fun c hc => ?_) ⟨rfl, Numeral.value?_write hx hnan⟩ h
  obtain ⟨hname, hdot⟩ := hend c hc
  exact Bool.or_eq_false_iff.2 ⟨hname, beq_false_of_ne hdot⟩

/-! ## Symbols with spaces -/

theorem word {s : Symbol} (hs : s.isWritten = true) (h : Spells true K ps) :
    Spells joined (Spelling.symbol s * K) (Layout.word s ps) := by
  refine .symbol hs (fun c hc => ?_) h.space
  cases hc
  exact s.goesOn_space

theorem spaced {s : Symbol} (hs : s.isWritten = true) (h : Spells true K ps) :
    Spells joined (Spelling.symbol s * K) (Layout.spaced s ps) := (Spells.word hs h).space

theorem comma (h : Spells true K ps) :
    Spells joined (Spelling.symbol .comma * K) (Layout.comma ps) := .word rfl h

theorem closing {depth : Nat} (hclear : Clear ps) (h : Spells true K ps) :
    Spells joined (Spelling.symbol .kwEnd * K) (Layout.closing depth ps) :=
  .indent (.symbol rfl hclear h)

end Piece.Spells

namespace Layout

open Piece

variable {joined : Bool} {depth : Nat} {K : Language Letter} {k : List Piece}

theorem clear_of_head {c : Char} (h : (render k).head? = some c) (hc : isNameContinue c = false) :
    Clear k := by
  intro d hd
  rw [h] at hd
  cases hd
  exact hc

theorem ends_of_head {c : Char} (h : (render k).head? = some c) (hc : isNameContinue c = false)
    (hdot : c ≠ '.') : Numeral.Ends (render k) := by
  intro d hd
  rw [h] at hd
  cases hd
  exact ⟨hc, hdot⟩

theorem clear_of_ends (h : Numeral.Ends (render k)) : Clear k := fun c hc => (h c hc).1

/-! ## Names -/

theorem clear_moreNames (ns : List Name) (hclear : Clear k) : Clear (moreNames ns k) := by
  cases ns with
  | nil => exact hclear
  | cons n ns => exact clear_of_head rfl (by decide)

theorem spells_moreNames {ns : List Name} (hns : Everywhere.names wellFormed ns) (hclear : Clear k)
    (h : Spells true K k) :
    Spells true (Spelling.series .comma Spelling.name ns * K) (moreNames ns k) := by
  induction ns with
  | nil => exact h.mono (one_mul K).ge
  | cons n ns ih =>
    rw [Spelling.series, mul_assoc, mul_assoc]
    refine .comma (.name (hns n List.mem_cons_self) (clear_moreNames ns hclear) ?_)
    exact ih fun m hm => hns m (List.mem_cons_of_mem n hm)

theorem spells_names {ns : List Name} (hne : ns ≠ []) (hns : Everywhere.names wellFormed ns)
    (hclear : Clear k) (h : Spells true K k) :
    Spells joined (Spelling.names ns * K) (names ns k) := by
  cases ns with
  | nil => exact absurd rfl hne
  | cons n ns =>
    rw [Spelling.names, Spelling.list, mul_assoc]
    refine .name (hns n List.mem_cons_self) (clear_moreNames ns hclear) ?_
    exact spells_moreNames (fun m hm => hns m (List.mem_cons_of_mem n hm)) hclear h

theorem spells_parameters {ns : List Name} {hasVarargs : Bool}
    (hns : Everywhere.names wellFormed ns) (hclear : Clear k) (h : Spells true K k) :
    Spells true (Spelling.parameters ns hasVarargs * K) (parameters ns hasVarargs k) := by
  have hvarargs : Spells true (Spelling.symbol .ellipsis * K) (.symbol .ellipsis :: k) :=
    .mark rfl (fun _ => rfl) h
  cases ns with
  | nil =>
    cases hasVarargs with
    | false => exact h.mono (one_mul K).ge
    | true => exact hvarargs
  | cons n ns =>
    cases hasVarargs with
    | false => exact spells_names (List.cons_ne_nil n ns) hns hclear h
    | true =>
      rw [Spelling.parameters, mul_assoc, mul_assoc]
      exact spells_names (List.cons_ne_nil n ns) hns (clear_of_head rfl (by decide)) hvarargs.comma

/-- A dot or a colon before a name. -/
theorem spells_member {s : Symbol} (hs : s = .dot ∨ s = .colon) {n : Name} (hn : IsName n.text)
    (hclear : Clear k) (h : Spells true K k) :
    Spells joined (Spelling.symbol s * (Spelling.name n * K)) (.symbol s :: .name n.text :: k) := by
  refine .symbol (by rcases hs with rfl | rfl <;> rfl) (fun c hc => ?_) (.name hn hclear h)
  obtain ⟨⟨d, ds, htext, hd, -⟩, -⟩ := hn
  have hhead : (render (.name n.text :: k)).head? = some d := by
    rw [render_cons, Piece.text, htext]
    rfl
  rw [hhead] at hc
  cases hc
  have hdot : c ≠ '.' := by
    rintro rfl
    revert hd
    decide
  have hcolon : c ≠ ':' := by
    rintro rfl
    revert hd
    decide
  rcases hs with rfl | rfl
  · exact Bool.or_eq_false_iff.2
      ⟨beq_false_of_ne hdot, Lexeme.not_isDigit_of_isNameStart hd⟩
  · exact beq_false_of_ne hcolon

theorem clear_morePath (isMethod : Bool) (ns : List Name) (hclear : Clear k) :
    Clear (morePath isMethod ns k) := by
  cases ns with
  | nil => exact hclear
  | cons n ns =>
    cases hcolon : isMethod && ns.isEmpty with
    | false =>
      rw [morePath, hcolon]
      exact clear_of_head rfl (by decide)
    | true =>
      rw [morePath, hcolon]
      exact clear_of_head rfl (by decide)

theorem spells_path {ns : List Name} (hns : Everywhere.names wellFormed ns) (hclear : Clear k)
    (h : Spells true K k) :
    Spells true (Spelling.series .dot Spelling.name ns * K) (morePath false ns k) := by
  induction ns with
  | nil => exact h.mono (one_mul K).ge
  | cons n ns ih =>
    rw [Spelling.series, mul_assoc, mul_assoc]
    refine spells_member (.inl rfl) (hns n List.mem_cons_self) (clear_morePath false ns hclear) ?_
    exact ih fun m hm => hns m (List.mem_cons_of_mem n hm)

theorem spells_methodPath {ns : List Name} {method : Name} (hns : Everywhere.names wellFormed ns)
    (hmethod : IsName method.text) (hclear : Clear k) (h : Spells true K k) :
    Spells true
      (Spelling.series .dot Spelling.name ns *
        (Spelling.symbol .colon * (Spelling.name method * K)))
      (morePath true (ns ++ [method]) k) := by
  induction ns with
  | nil =>
    rw [Spelling.series, one_mul]
    exact spells_member (.inr rfl) hmethod hclear h
  | cons n ns ih =>
    have hdot : (true && (ns ++ [method]).isEmpty) = false := by simp
    rw [Spelling.series, mul_assoc, mul_assoc, List.cons_append, morePath, hdot,
      if_neg Bool.false_ne_true]
    refine spells_member (.inl rfl) (hns n List.mem_cons_self) (clear_morePath true _ hclear) ?_
    exact ih fun m hm => hns m (List.mem_cons_of_mem n hm)

theorem spells_functionName {f : FunctionName} (hne : f.path ≠ [])
    (hmethod : f.isMethod = true → 2 ≤ f.path.length) (hf : Everywhere.names wellFormed f.path)
    (hclear : Clear k) (h : Spells true K k) :
    Spells joined (Spelling.functionName f * K) (functionName f k) := by
  obtain ⟨path, isMethod, span⟩ := f
  cases path with
  | nil => exact absurd rfl hne
  | cons n ns =>
    have hn : IsName n.text := hf n List.mem_cons_self
    have hns : Everywhere.names wellFormed ns := fun m hm => hf m (List.mem_cons_of_mem n hm)
    cases isMethod with
    | false =>
      rw [Spelling.functionName_function, Spelling.path, Spelling.list, mul_assoc]
      exact .name hn (clear_morePath false ns hclear) (spells_path hns hclear h)
    | true =>
      rcases List.eq_nil_or_concat ns with rfl | ⟨ns, method, rfl⟩
      · exact absurd (hmethod rfl) (Nat.not_succ_le_self 1)
      · rw [List.concat_eq_append] at hns ⊢
        have hmethod : IsName method.text := hns method (by simp)
        rw [← List.cons_append, Spelling.functionName_method, Spelling.path, Spelling.list]
        simp only [mul_assoc]
        refine .name hn (clear_morePath true _ hclear) ?_
        exact spells_methodPath (fun m hm => hns m (List.mem_append_left _ hm)) hmethod hclear h

/-! ## Beginnings -/

/-- An expression goes on with no bracket: it begins neither with another one nor with a sign that
a long bracket is made of. -/
theorem goesOn_leftBracket {e : Expression} (h : Spells true (Spelling.expression e * K) k) :
    ∀ c ∈ (render k).head?, Symbol.leftBracket.goesOn c = false := by
  intro c hc
  have hbegins := begins_expression e K _ h.letters
  refine eq_false_of_ne_true fun hgo => ?_
  rcases head?_render h.legible hc true with (rfl | rfl) | ⟨p, l, hl, hstarts, hsymbol⟩
  · cases hgo
  · cases hgo
  · rw [hsymbol] at hbegins
    rcases Bool.or_eq_true_iff.1 hgo with hbracket | hequals
    · obtain rfl := hstarts.bracket (eq_of_beq hbracket)
      cases hl
      cases hbegins
    · rcases hstarts.equals (eq_of_beq hequals) with rfl | rfl
      · cases hl
        cases hbegins
      · cases hl
        cases hbegins

theorem spells_unaryOperator (op : UnaryOperator) (h : Spells true K k) :
    Spells joined (Spelling.symbol op.symbol * K) (unaryOperator op k) := by
  cases op with
  | not => exact .word rfl h
  | length => exact .mark rfl (fun _ => rfl) h
  | negate =>
    rw [unaryOperator]
    split
    · refine .symbol rfl (fun c hc => ?_) h.space
      cases hc
      rfl
    · next hminus =>
      refine .symbol rfl (fun c hc => beq_false_of_ne ?_) h
      rintro rfl
      exact hminus ((startsWithMinus_iff k).2 hc)

theorem ends_moreExpressions (es : List Expression) (hend : Numeral.Ends (render k)) :
    Numeral.Ends (render (moreExpressions depth es k)) := by
  cases es with
  | nil =>
    rw [moreExpressions]
    exact hend
  | cons e es =>
    rw [moreExpressions]
    exact ends_of_head rfl (by decide) (by decide)

theorem ends_moreFields (fs : List Field) (hend : Numeral.Ends (render k)) :
    Numeral.Ends (render (moreFields depth fs k)) := by
  cases fs with
  | nil =>
    rw [moreFields]
    exact hend
  | cons f fs =>
    rw [moreFields]
    exact ends_of_head rfl (by decide) (by decide)

theorem clear_moreTargets (vs : List Variable) (hclear : Clear k) :
    Clear (moreTargets depth vs k) := by
  cases vs with
  | nil =>
    rw [moreTargets]
    exact hclear
  | cons v vs =>
    rw [moreTargets]
    exact clear_of_head rfl (by decide)

theorem clear_arguments (a : Arguments) : Clear (arguments depth a k) := by
  cases a with
  | list es span =>
    rw [arguments]
    exact clear_of_head rfl (by decide)
  | table t =>
    obtain ⟨fs, span⟩ := t
    cases fs with
    | nil =>
      rw [arguments, table]
      exact clear_of_head rfl (by decide)
    | cons f fs =>
      rw [arguments, table]
      exact clear_of_head rfl (by decide)
  | string value span =>
    rw [arguments]
    exact clear_of_head rfl (by decide)

theorem clear_functionBody (body : FunctionBody) : Clear (functionBody depth body k) := by
  obtain ⟨ns, hasVarargs, b, span⟩ := body
  rw [functionBody]
  exact clear_of_head rfl (by decide)

/-! ## Lines -/

/-- What may stand between a statement and the one before it, if there is one. -/
def gap : Option Statement → Language Letter
  | none => 1
  | some s => Spelling.trail s

theorem one_le_gap (before : Option Statement) : 1 ≤ gap before := by
  cases before with
  | none => exact le_rfl
  | some s => exact Spelling.one_le_trail s

theorem le_mul_of_one_le {L M : Language Letter} (h : 1 ≤ L) : M ≤ L * M :=
  (one_mul M).ge.trans (mul_le_mul_left h M)

theorem semicolon_le {b s : Statement} (hs : s.startsWithParen = true) :
    Spelling.symbol .semicolon ≤ Spelling.semicolons * Spelling.separation (some b) s := by
  rw [Spelling.separation, hs, Bool.and_true]
  split
  · exact le_mul_of_one_le Spelling.one_le_semicolons
  · rw [mul_one]
    exact le_kstar

/-- The semicolon before a line with a leading parenthesis is the one that the statement before it
asks for, or else one of any number. -/
theorem spells_line {before : Option Statement} {s : Statement} {L : Language Letter}
    (hbefore : ∀ b ∈ before, b.isLast = false)
    (h : ∀ joined, Spells joined (Spelling.statement s * L) k) :
    Spells joined (gap before * (Spelling.separation before s * (Spelling.statement s * L)))
      (.indent depth ::
        (if !before.isNone && s.startsWithParen then .symbol .semicolon :: k else k)) := by
  refine .indent ?_
  split
  · next hparen =>
    obtain ⟨hbehind, hs⟩ := Bool.and_eq_true_iff.1 hparen
    cases before with
    | none => cases hbehind
    | some b =>
      refine .mono (.mark rfl (fun _ => rfl) (h true)) ?_
      rw [gap, Spelling.trail_of_open (hbefore b rfl), ← mul_assoc Spelling.semicolons]
      exact mul_le_mul_left (semicolon_le hs) _
  · next hparen =>
    have hseparation : Spelling.separation before s = 1 := by
      rw [Spelling.separation, if_neg]
      intro hopen
      obtain ⟨hbefore, hs⟩ := Bool.and_eq_true_iff.1 hopen
      cases before with
      | none => cases hbefore
      | some b => exact hparen (Bool.and_eq_true_iff.2 ⟨rfl, hs⟩)
    rw [hseparation, one_mul]
    exact (h _).mono (le_mul_of_one_le (one_le_gap before))

section Blocks

variable {b : Block}
  (hb : ∀ {L : Language Letter} {ps : List Piece}, (∀ joined, Spells joined L ps) →
    Spells false (Spelling.block b * L) (block (depth + 1) b ps))
include hb

theorem spells_body (hclear : Clear k) (h : Spells true K k) :
    Spells joined (Spelling.symbol .kwDo * (Spelling.block b * (Spelling.symbol .kwEnd * K)))
      (.symbol .kwDo :: .newline :: block (depth + 1) b (closing depth k)) :=
  .symbol rfl (clear_of_head rfl (by decide)) (.newline (hb fun _ => .closing hclear h))

theorem spells_clause {e : Expression}
    (he : ∀ {L : Language Letter} {ps : List Piece}, Numeral.Ends (render ps) → Spells true L ps →
      Spells true (Spelling.expression e * L) (expression depth e ps))
    (h : ∀ joined, Spells joined K k) {span : Span} :
    Spells true (Spelling.clause ⟨e, b, span⟩ * K)
      (expression depth e
        (.space :: .symbol .kwThen :: .newline :: block (depth + 1) b (.indent depth :: k))) := by
  rw [Spelling.clause, mul_assoc, mul_assoc]
  refine he (ends_of_head rfl (by decide) (by decide)) (.space ?_)
  exact .symbol rfl (clear_of_head rfl (by decide)) (.newline (hb fun joined => .indent (h joined)))

end Blocks

/-! ## Trees -/

mutual

theorem spells_block (b : Block) {joined : Bool} {depth : Nat} {K : Language Letter}
    {k : List Piece} (hb : Everywhere.block wellFormed b) (h : ∀ joined, Spells joined K k) :
    Spells joined (Spelling.block b * K) (block depth b k) :=
  match b with
  | ⟨ss, _⟩ => by
    rw [Spelling.block, block, mul_assoc]
    refine Spells.mono ?_ (mul_le_mul_left Spelling.one_le_semicolons _)
    exact spells_statements ss none (fun _ hb => nomatch hb) hb.1 hb.2 h

/-- Statements behind another one, if there is one before them in their block. -/
theorem spells_statements (ss : List Statement) (before : Option Statement) {joined : Bool}
    {depth : Nat} {K : Language Letter} {k : List Piece}
    (hbefore : ∀ b ∈ before, ss ≠ [] → b.isLast = false) (hlast : lastOnly ss)
    (hss : Everywhere.statements wellFormed ss) (h : ∀ joined, Spells joined K k) :
    Spells joined (gap before * (Spelling.statements before ss * K))
      (statements depth before.isNone ss k) :=
  match ss with
  | [] => by
    rw [Spelling.statements, statements, one_mul]
    exact (h joined).mono (le_mul_of_one_le (one_le_gap before))
  | s :: ss => by
    rw [Spelling.statements, statements]
    simp only [mul_assoc]
    refine spells_line (fun b hb => hbefore b hb (List.cons_ne_nil s ss)) fun joined => ?_
    refine spells_statement s hss.1 (ends_of_head rfl (by decide) (by decide)) (.newline ?_)
    refine spells_statements ss (some s) ?_ ?_ hss.2 h
    · intro b hb hne
      cases hb
      refine hlast s ?_
      rw [List.dropLast_cons_of_ne_nil hne]
      exact List.mem_cons_self
    · intro t ht
      refine hlast t ?_
      cases ss with
      | nil => cases ht
      | cons u us => exact List.mem_cons_of_mem s ht

theorem spells_statement (s : Statement) {joined : Bool} {depth : Nat} {K : Language Letter}
    {k : List Piece} (hs : Everywhere.statement wellFormed s) (hend : Numeral.Ends (render k))
    (h : Spells true K k) :
    Spells joined (Spelling.statement s * K) (statement depth s k) :=
  match s with
  | .assign vs es _ => by
    rw [Spelling.statement, statement, mul_assoc, mul_assoc]
    refine spells_targets vs hs.1.1 hs.2.1 (clear_of_head rfl (by decide)) (.spaced rfl ?_)
    exact spells_expressions es hs.1.2 hs.2.2 hend h
  | .localAssign ns [] _ => by
    rw [Spelling.statement, statement, Spelling.assigned, mul_one, mul_assoc]
    exact .word rfl (spells_names hs.1 hs.2.1 (clear_of_ends hend) h)
  | .localAssign ns (e :: es) _ => by
    rw [Spelling.statement, statement, Spelling.assigned]
    simp only [mul_assoc]
    refine .word rfl (spells_names hs.1 hs.2.1 (clear_of_head rfl (by decide)) (.spaced rfl ?_))
    exact spells_expression e hs.2.2.1 (ends_moreExpressions es hend)
      (spells_moreExpressions es hs.2.2.2 hend h)
  | .call c => by
    rw [Spelling.statement, statement]
    exact spells_call c hs.2 h
  | .doBlock b _ => by
    rw [Spelling.statement, statement, mul_assoc, mul_assoc]
    exact spells_body (spells_block b hs.2) (clear_of_ends hend) h
  | .whileLoop e b _ => by
    rw [Spelling.statement, statement]
    simp only [mul_assoc]
    refine .word rfl (spells_expression e hs.2.1 (ends_of_head rfl (by decide) (by decide)) ?_)
    exact .space (spells_body (spells_block b hs.2.2) (clear_of_ends hend) h)
  | .repeatLoop b e _ => by
    rw [Spelling.statement, statement]
    simp only [mul_assoc]
    refine .symbol rfl (clear_of_head rfl (by decide)) (.newline (spells_block b hs.2.2 fun _ => ?_))
    exact .indent (.word rfl (spells_expression e hs.2.1 hend h))
  | .conditional cs none _ => by
    rw [Spelling.statement, statement, Spelling.otherwise, mul_one, mul_assoc]
    exact spells_clauses cs hs.1 hs.2.1 fun _ => .symbol rfl (clear_of_ends hend) h
  | .conditional cs (some b) _ => by
    rw [Spelling.statement, statement, Spelling.otherwise]
    simp only [mul_assoc]
    refine spells_clauses cs hs.1 hs.2.1 fun _ => ?_
    refine .symbol rfl (clear_of_head rfl (by decide)) (.newline (spells_block b hs.2.2 fun _ => ?_))
    exact .closing (clear_of_ends hend) h
  | .numericFor n start limit none b _ => by
    rw [Spelling.statement, statement, Spelling.step, mul_one]
    simp only [mul_assoc]
    refine .word rfl (.name hs.2.1 (clear_of_head rfl (by decide)) (.spaced rfl ?_))
    refine spells_expression start hs.2.2.1 (ends_of_head rfl (by decide) (by decide)) (.comma ?_)
    refine spells_expression limit hs.2.2.2.1 (ends_of_head rfl (by decide) (by decide)) ?_
    exact .space (spells_body (spells_block b hs.2.2.2.2.2) (clear_of_ends hend) h)
  | .numericFor n start limit (some e) b _ => by
    rw [Spelling.statement, statement, Spelling.step]
    simp only [mul_assoc]
    refine .word rfl (.name hs.2.1 (clear_of_head rfl (by decide)) (.spaced rfl ?_))
    refine spells_expression start hs.2.2.1 (ends_of_head rfl (by decide) (by decide)) (.comma ?_)
    refine spells_expression limit hs.2.2.2.1 (ends_of_head rfl (by decide) (by decide))
      (.comma ?_)
    refine spells_expression e hs.2.2.2.2.1 (ends_of_head rfl (by decide) (by decide)) ?_
    exact .space (spells_body (spells_block b hs.2.2.2.2.2) (clear_of_ends hend) h)
  | .genericFor ns es b _ => by
    rw [Spelling.statement, statement]
    simp only [mul_assoc]
    refine .word rfl (spells_names hs.1.1 hs.2.1 (clear_of_head rfl (by decide)) (.spaced rfl ?_))
    refine spells_expressions es hs.1.2 hs.2.2.1 (ends_of_head rfl (by decide) (by decide)) ?_
    exact .space (spells_body (spells_block b hs.2.2.2) (clear_of_ends hend) h)
  | .function f body _ => by
    rw [Spelling.statement, statement, mul_assoc, mul_assoc]
    refine .word rfl (spells_functionName hs.1.1 hs.1.2 hs.2.1 (clear_functionBody body) ?_)
    exact spells_functionBody body hs.2.2 (clear_of_ends hend) h
  | .localFunction n body _ => by
    rw [Spelling.statement, statement]
    simp only [mul_assoc]
    refine .word rfl (.word rfl (.name hs.2.1 (clear_functionBody body) ?_))
    exact spells_functionBody body hs.2.2 (clear_of_ends hend) h
  | .label n _ => by
    rw [Spelling.statement, statement, mul_assoc, mul_assoc]
    refine .mark rfl (fun _ => rfl) (.name hs.2 (clear_of_head rfl (by decide)) ?_)
    exact .mark rfl (fun _ => rfl) h
  | .jump n _ => by
    rw [Spelling.statement, statement, mul_assoc]
    exact .word rfl (.name hs.2 (clear_of_ends hend) h)
  | .returnValues [] _ => by
    rw [Spelling.statement, statement, Spelling.values, mul_one]
    exact .symbol rfl (clear_of_ends hend) h
  | .returnValues (e :: es) _ => by
    rw [Spelling.statement, statement, Spelling.values]
    simp only [mul_assoc]
    refine .word rfl (spells_expression e hs.2.1 (ends_moreExpressions es hend) ?_)
    exact spells_moreExpressions es hs.2.2 hend h
  | .breakLoop _ => by
    rw [Spelling.statement, statement]
    exact .symbol rfl (clear_of_ends hend) h

/-- One clause or more. -/
theorem spells_clauses (cs : List Clause) {joined : Bool} {depth : Nat} {K : Language Letter}
    {k : List Piece} (hne : cs ≠ []) (hcs : Everywhere.clauses wellFormed cs)
    (h : ∀ joined, Spells joined K k) :
    Spells joined (Spelling.clauses cs * K) (conditional depth .kwIf cs k) :=
  match cs with
  | [] => absurd rfl hne
  | ⟨e, b, _⟩ :: cs => by
    rw [Spelling.clauses, conditional, mul_assoc, mul_assoc]
    refine .word rfl (spells_clause (spells_block b hcs.1.2) (spells_expression e hcs.1.1) ?_)
    exact fun _ => spells_moreClauses cs hcs.2 h

theorem spells_moreClauses (cs : List Clause) {joined : Bool} {depth : Nat} {K : Language Letter}
    {k : List Piece} (hcs : Everywhere.clauses wellFormed cs) (h : ∀ joined, Spells joined K k) :
    Spells joined (Spelling.moreClauses cs * K) (conditional depth .kwElseif cs k) :=
  match cs with
  | [] => by
    rw [Spelling.moreClauses, conditional, one_mul]
    exact h joined
  | ⟨e, b, _⟩ :: cs => by
    rw [Spelling.moreClauses, conditional, mul_assoc, mul_assoc]
    refine .word rfl (spells_clause (spells_block b hcs.1.2) (spells_expression e hcs.1.1) ?_)
    exact fun _ => spells_moreClauses cs hcs.2 h

theorem spells_functionBody (body : FunctionBody) {joined : Bool} {depth : Nat}
    {K : Language Letter} {k : List Piece} (hb : Everywhere.functionBody wellFormed body)
    (hclear : Clear k) (h : Spells true K k) :
    Spells joined (Spelling.functionBody body * K) (functionBody depth body k) :=
  match body with
  | ⟨ns, hasVarargs, b, _⟩ => by
    rw [Spelling.functionBody, functionBody]
    simp only [mul_assoc]
    refine .mark rfl (fun _ => rfl) (spells_parameters hb.1 (clear_of_head rfl (by decide)) ?_)
    refine .mark rfl (fun _ => rfl) (.newline (spells_block b hb.2 fun _ => ?_))
    exact .closing hclear h

theorem spells_expression (e : Expression) {joined : Bool} {depth : Nat} {K : Language Letter}
    {k : List Piece} (he : Everywhere.expression wellFormed e) (hend : Numeral.Ends (render k))
    (h : Spells true K k) :
    Spells joined (Spelling.expression e * K) (expression depth e k) :=
  match e with
  | .nil _ => by
    rw [Spelling.expression, expression]
    exact .symbol rfl (clear_of_ends hend) h
  | .boolean value _ => by
    rw [Spelling.expression, expression]
    cases value with
    | false => exact .symbol rfl (clear_of_ends hend) h
    | true => exact .symbol rfl (clear_of_ends hend) h
  | .number value _ => by
    rw [Spelling.expression, expression]
    exact .number he.1.1 he.1.2 hend h
  | .string value _ => by
    rw [Spelling.expression, expression]
    exact .string h
  | .varargs _ => by
    rw [Spelling.expression, expression]
    exact .mark rfl (fun _ => rfl) h
  | .function body _ => by
    rw [Spelling.expression, expression, mul_assoc]
    exact .symbol rfl (clear_functionBody body)
      (spells_functionBody body he.2 (clear_of_ends hend) h)
  | .primary p => by
    rw [Spelling.expression, expression]
    exact spells_primary p he.2 (clear_of_ends hend) h
  | .table t => by
    rw [Spelling.expression, expression]
    exact spells_table t he.2 h
  | .binary op left right _ => by
    rw [Spelling.expression, expression, mul_assoc, mul_assoc]
    refine spells_expression left he.2.1 (ends_of_head rfl (by decide) (by decide)) ?_
    exact .spaced (by cases op <;> rfl) (spells_expression right he.2.2 hend h)
  | .unary op operand _ => by
    rw [Spelling.expression, expression, mul_assoc]
    exact spells_unaryOperator op (spells_expression operand he.2 hend h)

theorem spells_moreExpressions (es : List Expression) {depth : Nat} {K : Language Letter}
    {k : List Piece} (hes : Everywhere.expressions wellFormed es) (hend : Numeral.Ends (render k))
    (h : Spells true K k) :
    Spells true (Spelling.moreExpressions es * K) (moreExpressions depth es k) :=
  match es with
  | [] => by
    rw [Spelling.moreExpressions, moreExpressions, one_mul]
    exact h
  | e :: es => by
    rw [Spelling.moreExpressions, moreExpressions, mul_assoc, mul_assoc]
    exact .comma (spells_expression e hes.1 (ends_moreExpressions es hend)
      (spells_moreExpressions es hes.2 hend h))

/-- One expression or more. -/
theorem spells_expressions (es : List Expression) {joined : Bool} {depth : Nat}
    {K : Language Letter} {k : List Piece} (hne : es ≠ [])
    (hes : Everywhere.expressions wellFormed es) (hend : Numeral.Ends (render k))
    (h : Spells true K k) :
    Spells joined (Spelling.expressions es * K) (expressions depth es k) :=
  match es with
  | [] => absurd rfl hne
  | e :: es => by
    rw [Spelling.expressions, expressions, mul_assoc]
    exact spells_expression e hes.1 (ends_moreExpressions es hend)
      (spells_moreExpressions es hes.2 hend h)

/-- Any number of expressions. -/
theorem spells_values (es : List Expression) {depth : Nat} {K : Language Letter}
    {k : List Piece} (hes : Everywhere.expressions wellFormed es) (hend : Numeral.Ends (render k))
    (h : Spells true K k) :
    Spells true (Spelling.values es * K) (expressions depth es k) :=
  match es with
  | [] => by
    rw [Spelling.values, expressions, one_mul]
    exact h
  | e :: es => by
    rw [Spelling.values, expressions, mul_assoc]
    exact spells_expression e hes.1 (ends_moreExpressions es hend)
      (spells_moreExpressions es hes.2 hend h)

theorem spells_primary (p : Primary) {joined : Bool} {depth : Nat} {K : Language Letter}
    {k : List Piece} (hp : Everywhere.primary wellFormed p) (hclear : Clear k)
    (h : Spells true K k) :
    Spells joined (Spelling.primary p * K) (primary depth p k) :=
  match p with
  | .var v => by
    rw [Spelling.primary, primary]
    exact spells_target v hp hclear h
  | .call c => by
    rw [Spelling.primary, primary]
    exact spells_call c hp h
  | .parenthesized e _ => by
    rw [Spelling.primary, primary, mul_assoc, mul_assoc]
    refine .mark rfl (fun _ => rfl) ?_
    exact spells_expression e hp (ends_of_head rfl (by decide) (by decide))
      (.mark rfl (fun _ => rfl) h)

theorem spells_target (v : Variable) {joined : Bool} {depth : Nat} {K : Language Letter}
    {k : List Piece} (hv : Everywhere.target wellFormed v) (hclear : Clear k)
    (h : Spells true K k) :
    Spells joined (Spelling.target v * K) (target depth v k) :=
  match v with
  | .name n => by
    rw [Spelling.target, target]
    exact .name hv hclear h
  | .index base key _ => by
    rw [Spelling.target, target]
    simp only [mul_assoc]
    have hkey : Spells true (Spelling.expression key * (Spelling.symbol .rightBracket * K))
        (expression depth key (.symbol .rightBracket :: k)) :=
      spells_expression key hv.2 (ends_of_head rfl (by decide) (by decide))
        (.mark rfl (fun _ => rfl) h)
    refine spells_primary base hv.1 (clear_of_head rfl (by decide)) ?_
    exact .symbol rfl (goesOn_leftBracket hkey) hkey
  | .member base n _ => by
    rw [Spelling.target, target, mul_assoc, mul_assoc]
    refine spells_primary base hv.1 (clear_of_head rfl (by decide)) ?_
    exact spells_member (.inl rfl) hv.2 hclear h

/-- One target or more. -/
theorem spells_targets (vs : List Variable) {joined : Bool} {depth : Nat} {K : Language Letter}
    {k : List Piece} (hne : vs ≠ []) (hvs : Everywhere.targets wellFormed vs) (hclear : Clear k)
    (h : Spells true K k) :
    Spells joined (Spelling.targets vs * K) (targets depth vs k) :=
  match vs with
  | [] => absurd rfl hne
  | v :: vs => by
    rw [Spelling.targets, targets, mul_assoc]
    exact spells_target v hvs.1 (clear_moreTargets vs hclear) (spells_moreTargets vs hvs.2 hclear h)

theorem spells_moreTargets (vs : List Variable) {depth : Nat} {K : Language Letter}
    {k : List Piece} (hvs : Everywhere.targets wellFormed vs) (hclear : Clear k)
    (h : Spells true K k) :
    Spells true (Spelling.moreTargets vs * K) (moreTargets depth vs k) :=
  match vs with
  | [] => by
    rw [Spelling.moreTargets, moreTargets, one_mul]
    exact h
  | v :: vs => by
    rw [Spelling.moreTargets, moreTargets, mul_assoc, mul_assoc]
    exact .comma (spells_target v hvs.1 (clear_moreTargets vs hclear)
      (spells_moreTargets vs hvs.2 hclear h))

theorem spells_call (c : Call) {joined : Bool} {depth : Nat} {K : Language Letter}
    {k : List Piece} (hc : Everywhere.call wellFormed c) (h : Spells true K k) :
    Spells joined (Spelling.call c * K) (call depth c k) :=
  match c with
  | .function callee args _ => by
    rw [Spelling.call, call, mul_assoc]
    exact spells_primary callee hc.1 (clear_arguments args) (spells_arguments args hc.2 h)
  | .method receiver n args _ => by
    rw [Spelling.call, call]
    simp only [mul_assoc]
    refine spells_primary receiver hc.1 (clear_of_head rfl (by decide)) ?_
    exact spells_member (.inr rfl) hc.2.1 (clear_arguments args) (spells_arguments args hc.2.2 h)

theorem spells_arguments (a : Arguments) {depth : Nat} {K : Language Letter} {k : List Piece}
    (ha : Everywhere.arguments wellFormed a) (h : Spells true K k) :
    Spells true (Spelling.arguments a * K) (arguments depth a k) :=
  match a with
  | .list es _ => by
    rw [Spelling.arguments, arguments, mul_assoc, mul_assoc]
    refine .argumentParen ?_
    exact spells_values es ha (ends_of_head rfl (by decide) (by decide))
      (.mark rfl (fun _ => rfl) h)
  | .table t => by
    rw [Spelling.arguments, arguments]
    exact spells_table t ha h
  | .string value _ => by
    rw [Spelling.arguments, arguments]
    exact .string h

theorem spells_table (t : Table) {joined : Bool} {depth : Nat} {K : Language Letter}
    {k : List Piece} (ht : Everywhere.table wellFormed t) (h : Spells true K k) :
    Spells joined (Spelling.table t * K) (table depth t k) :=
  match t with
  | ⟨[], _⟩ => by
    rw [Spelling.table, table, Spelling.fields, mul_one, mul_assoc]
    exact .mark rfl (fun _ => rfl) (.mark rfl (fun _ => rfl) h)
  | ⟨f :: fs, _⟩ => by
    rw [Spelling.table, table, Spelling.fields]
    simp only [mul_assoc]
    refine .mark rfl (fun _ => rfl) (.space ?_)
    refine spells_field f ht.1 ?_ (spells_moreFields fs ht.2 ?_ ?_)
    · exact ends_moreFields fs (ends_of_head rfl (by decide) (by decide))
    · exact ends_of_head rfl (by decide) (by decide)
    · exact .space (.mark rfl (fun _ => rfl) h)

theorem spells_moreFields (fs : List Field) {depth : Nat} {K : Language Letter}
    {k : List Piece} (hfs : Everywhere.fields wellFormed fs) (hend : Numeral.Ends (render k))
    (h : Spells true K k) :
    Spells true (Spelling.moreFields fs * K) (moreFields depth fs k) :=
  match fs with
  | [] => by
    rw [Spelling.moreFields, moreFields]
    have hle : 1 ≤ 1 + Spelling.fieldSeparator := fun u hu => .inl hu
    exact h.mono ((one_mul K).ge.trans (mul_le_mul_left hle K))
  | f :: fs => by
    rw [Spelling.moreFields, moreFields, mul_assoc, mul_assoc]
    have hle : Spelling.symbol .comma ≤ Spelling.fieldSeparator := fun u hu => .inl hu
    refine .mono (.comma ?_) (mul_le_mul_left hle _)
    exact spells_field f hfs.1 (ends_moreFields fs hend) (spells_moreFields fs hfs.2 hend h)

theorem spells_field (f : Field) {joined : Bool} {depth : Nat} {K : Language Letter}
    {k : List Piece} (hf : Everywhere.field wellFormed f) (hend : Numeral.Ends (render k))
    (h : Spells true K k) :
    Spells joined (Spelling.field f * K) (field depth f k) :=
  match f with
  | .keyed key value _ => by
    rw [Spelling.field, field]
    simp only [mul_assoc]
    have hkey : Spells true (Spelling.expression key * (Spelling.symbol .rightBracket *
          (Spelling.symbol .assign * (Spelling.expression value * K))))
        (expression depth key (.symbol .rightBracket :: spaced .assign (expression depth value k))) :=
      spells_expression key hf.1 (ends_of_head rfl (by decide) (by decide))
        (.mark rfl (fun _ => rfl) (.spaced rfl (spells_expression value hf.2 hend h)))
    exact .symbol rfl (goesOn_leftBracket hkey) hkey
  | .named n value _ => by
    rw [Spelling.field, field, mul_assoc, mul_assoc]
    refine .name hf.1 (clear_of_head rfl (by decide)) ?_
    exact .spaced rfl (spells_expression value hf.2 hend h)
  | .positional value => by
    rw [Spelling.field, field]
    exact spells_expression value hf hend h

end

end Layout

end LuaSource
