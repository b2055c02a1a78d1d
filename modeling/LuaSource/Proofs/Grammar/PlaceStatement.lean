-- SUMMARY: Statements and blocks are placed by the tokens that they are parsed from, and so is a tree.
import LuaSource.Proofs.Grammar.PlaceExpression
import LuaSource.Proofs.Grammar.ReadStatement

/-!
# Placing statements

A statement is placed as an expression is. In a block, statements stand behind one another with
semicolons between them, and what is known of these from reading a block holds here too.
-/

namespace LuaSource.Placing

open Parse

variable {inner : Level} {w w₀ : Window} {depth : Nat}

/-- The last item of a list ends where the list does. -/
theorem getLast_stop {α : Type} {separator : Symbol} {item : α → Language Mark} {span : α → Span}
    (hitem : ∀ a, ∀ u ∈ item a, Fills u (span a)) {as : List α}
    (h : w₀.Over (list separator item as) w) :
    ∃ last ∈ as.getLast?, (span last).stop = w.before := by
  obtain ⟨u, hu, htakes⟩ := h
  obtain ⟨_, _, last, hlast, _, d, hd, hstop⟩ := fills_list hitem hu
  refine ⟨last, hlast, ?_⟩
  rw [htakes.before, Option.mem_def.1 hd]
  exact hstop.symm

theorem expressions_stop {es : List Expression} (h : w₀.Over (expressions es) w) :
    ∃ last ∈ es.getLast?, last.span.stop = w.before := by
  rw [expressions_eq] at h
  exact getLast_stop fills_expression h

theorem nil_notMem_list {α : Type} {separator : Symbol} {item : α → Language Mark}
    {span : α → Span} (hitem : ∀ a, ∀ u ∈ item a, Fills u (span a)) (as : List α) :
    [] ∉ list separator item as := by
  intro hnil
  obtain ⟨_, _, _, _, hfills⟩ := fills_list hitem hnil
  exact hfills.ne_nil rfl

theorem nil_notMem_expressions (es : List Expression) : [] ∉ expressions es := by
  rw [expressions_eq]
  exact nil_notMem_list fills_expression es

/-! ## Loops -/

theorem doBlock_places (h : inner.Places) (hw : w.Proper) (hs : w.current.symbol = .kwDo) :
    (Grammar.doBlock inner).Places w w statement := by
  refine .takeMark (.refl hw) (by simp [hs]) fun w₁ _ hnext h₁ => ?_
  refine behind_block h h₁ hs hnext fun b w₂ h₂ => ?_
  refine .closing h₂ (by decide) fun w₃ hstop h₃ => .pure ?_
  simpa only [statement, one_mul] using h₃.between (nil_notMem_symbol _) hstop

theorem whileLoop_places (h : inner.Places) (hw : w.Proper) (hs : w.current.symbol = .kwWhile) :
    (Grammar.whileLoop inner).Places w w statement := by
  refine .take (.refl hw) hs (by decide) fun w₁ _ h₁ => ?_
  refine .bind h₁ (expression_places h h₁.proper) fun e w₂ _ h₂ => ?_
  refine .expectMark h₂ (by decide) fun w₃ hs _ hnext h₃ => ?_
  refine behind_block h h₃ hs hnext fun b w₄ h₄ => ?_
  refine .closing h₄ (by decide) fun w₅ hstop h₅ => .pure ?_
  simpa only [statement, one_mul] using h₅.between (nil_notMem_symbol _) hstop

theorem repeatLoop_places (h : inner.Places) (hw : w.Proper)
    (hs : w.current.symbol = .kwRepeat) : (Grammar.repeatLoop inner).Places w w statement := by
  refine .takeMark (.refl hw) (by simp [hs]) fun w₁ _ hnext h₁ => ?_
  refine behind_block h h₁ hs hnext fun b w₂ h₂ => ?_
  refine .closing h₂ (by decide) fun w₃ _ h₃ => ?_
  refine .bind h₃ (expression_places h h₃.proper) fun e w₄ he h₄ => .pure ?_
  have hspan := (expression_places h h₃.proper e w₄ he).span_eq (fills_expression e)
  simpa only [statement, one_mul] using
    h₄.between (nil_notMem_of_fills (fills_expression e)) hspan.2

/-! ## Conditions -/

theorem clause_places (h : inner.Places) (hw : w.Proper) (keyword : Span) :
    (Grammar.clause inner keyword).Places w w (clause keyword) := by
  refine .bind (.refl hw) (expression_places h hw) fun e w₁ _ h₁ => ?_
  refine .expectMark h₁ (by decide) fun w₂ hs _ hnext h₂ => ?_
  -- The span of the clause is computed from the token that has just been taken.
  let last (b : Block) (thenSpan : Span) : Span :=
    if b.statements.isEmpty then thenSpan else b.span
  refine .behind (L := fun b c => provided
    (Span.between keyword (last b w₁.current.span) = Span.between keyword (last b c.span))
    (block c.next b)) h₂ hs ?_ fun b w₃ _ h₃ => .pure ?_
  · intro b w₃ hb
    rw [← hnext]
    exact (h.block _ w₂ h₂.proper b w₃ hb).mono (le_provided rfl _)
  · simpa only [clause, one_mul] using h₃

theorem conditional_places (h : inner.Places) (hw : w.Proper) (hs : w.current.symbol = .kwIf) :
    (Grammar.conditional inner).Places w w statement := by
  refine .takeMark (.refl hw) (by simp [hs]) fun w₁ _ _ h₁ => ?_
  refine .behind (L := fun c keyword => clause keyword.span c) h₁ hs
    (clause_places h h₁.proper _) fun first w₂ _ h₂ => ?_
  refine .separatedThen (L := fun c keyword => clause keyword.span c) h₂ (by decide)
    (fun c w hw => clause_places h hw c.span) fun rest w₃ h₃ => ?_
  rw [one_mul, ← moreClauses_eq, ← clauses] at h₃
  -- With `else` or without, the statement ends in the same way.
  have hend : ∀ (otherwise : Option Block) (w₄ : Window),
      w.Over (clauses (first :: rest) * Placing.otherwise otherwise) w₄ →
      Parse.Places (do
        let closing ← expectClosing .kwEnd .kwIf w.current.span.start.line
        return .conditional (first :: rest) otherwise (Span.between w.current.span closing.span))
      w w₄ statement := by
    intro otherwise w₄ h₄
    refine .closing h₄ (by decide) fun w₅ hstop h₅ => .pure ?_
    rw [statement]
    exact h₅.between (nil_notMem_symbol _) hstop
  refine .accept h₃ (by decide) (fun w₄ hs hnext h₄ => ?_) ?_
  · dsimp only
    rw [bind_map_left]
    refine behind_block h h₄ hs hnext fun b w₅ h₅ => hend (some b) w₅ ?_
    rwa [otherwise]
  · dsimp only
    rw [pure_bind]
    refine hend none w₃ ?_
    rwa [otherwise, mul_one]

/-! ## Counting and iterating -/

/-- The body of a loop, which ends the loop. -/
theorem forBody_places {K : Language Mark} {line : Nat} {s : Block → Token → Statement}
    (h : inner.Places) (hw : w₀.Over K w)
    (hs : ∀ b t, statement (s b t) = spanned (Span.between w₀.current.span t.span)
      (K * behind .kwDo (fun c => block c.next b) * symbol .kwEnd)) :
    (Grammar.forBody inner line >>= fun r => pure (s r.1 r.2)).Places w₀ w statement := by
  simp only [Grammar.forBody, bind_assoc, pure_bind]
  refine .expectMark hw (by decide) fun w₁ hdo _ hnext h₁ => ?_
  refine behind_block h h₁ hdo hnext fun b w₂ h₂ => ?_
  refine .closing h₂ (by decide) fun w₃ hstop h₃ => .pure ?_
  rw [hs]
  exact h₃.between (nil_notMem_symbol _) hstop

theorem numericFor_places (h : inner.Places) (hw : w₀.Over (symbol .kwFor) w) :
    (Grammar.numericFor inner w₀.current.span).Places w₀ w statement := by
  refine .bind hw (.expectName hw.proper) fun n w₁ _ h₁ => ?_
  refine .expect h₁ (by decide) fun w₂ _ h₂ => ?_
  refine .bind h₂ (expression_places h h₂.proper) fun start w₃ _ h₃ => ?_
  refine .expect h₃ (by decide) fun w₄ _ h₄ => ?_
  refine .bind h₄ (expression_places h h₄.proper) fun limit w₅ _ h₅ => ?_
  refine .accept h₅ (by decide) (fun w₆ hs _ h₆ => ?_) ?_
  · dsimp only
    rw [bind_map_left]
    have h₆ := h₆.symbol hs
    refine .bind h₆ (expression_places h h₆.proper) fun e w₇ _ h₇ => ?_
    refine forBody_places (s := fun b t => .numericFor n start limit (some e) b
      (Span.between w₀.current.span t.span)) h h₇ fun b t => ?_
    simp only [statement, step, mul_assoc]
  · dsimp only
    rw [pure_bind]
    refine forBody_places (s := fun b t => .numericFor n start limit none b
      (Span.between w₀.current.span t.span)) h h₅ fun b t => ?_
    simp only [statement, step, mul_one]

theorem genericFor_places (h : inner.Places) (hw : w₀.Over (symbol .kwFor) w) :
    (Grammar.genericFor inner w₀.current.span).Places w₀ w statement := by
  refine .bind hw (commaList_places (fun _ => .expectName) hw.proper) fun ns w₁ _ h₁ => ?_
  refine .expect h₁ (by decide) fun w₂ _ h₂ => ?_
  refine .bind h₂ (expressionList_places h h₂.proper) fun es w₃ _ h₃ => ?_
  refine forBody_places (s := fun b t => .genericFor ns es b
    (Span.between w₀.current.span t.span)) h h₃ fun b t => ?_
  simp only [statement, names]

theorem forLoop_places (h : inner.Places) (hw : w.Proper) (hs : w.current.symbol = .kwFor) :
    (Grammar.forLoop inner).Places w w statement := by
  refine .take (.refl hw) hs (by decide) fun w₁ _ h₁ => .symbol ?_
  rw [one_mul] at h₁
  split
  · next hs =>
    refine .followingSymbol ?_
    split
    · exact numericFor_places h h₁
    · exact genericFor_places h h₁
    · exact genericFor_places h h₁
    · exact .takeMark h₁ (by simp [hs]) fun _ _ _ _ => .fail
  · exact .fail

/-! ## Functions and local variables -/

theorem functionName_places (hw : w.Proper) :
    (Grammar.functionName : Parse _).Places w w functionName := by
  refine .bind (.refl hw) (.expectName hw) fun first w₁ hfirst h₁ => ?_
  have hstart := ((Places.expectName hw first w₁ hfirst).span_eq (fills_name first)).1
  refine .separatedThen h₁ (by decide) (fun _ _ => .expectName) fun rest w₂ h₂ => ?_
  simp only [behind_const, one_mul] at h₂
  have h₂ : w.Over (path (first :: rest)) w₂ := h₂
  refine .accept h₂ (by decide) (fun w₃ hs _ h₃ => ?_) (.pure ?_)
  · have h₃ := h₃.symbol hs
    refine .bind h₃ (.expectName h₃.proper) fun method w₄ hmethod h₄ => .pure ?_
    have hspan := (Places.expectName h₃.proper method w₄ hmethod).span_eq (fills_name method)
    rw [functionName_method]
    exact h₄.spanned (nil_notMem_mul (nil_notMem_of_fills (fills_name method))) hstart hspan.2
  · obtain ⟨last, hlast, hstop⟩ := getLast_stop fills_name h₂
    rw [Option.mem_def.1 hlast, functionName_function]
    exact h₂.spanned (nil_notMem_list fills_name _) hstart hstop

theorem functionStatement_places (h : inner.Places) (hw : w.Proper)
    (hs : w.current.symbol = .kwFunction) :
    (Grammar.functionStatement inner).Places w w statement := by
  refine .take (.refl hw) hs (by decide) fun w₁ _ h₁ => ?_
  refine .bind h₁ (functionName_places h₁.proper) fun f w₂ _ h₂ => ?_
  refine .bind h₂ (functionBody_places h h₂.proper _) fun body w₃ hbody h₃ => .pure ?_
  have hspan := (functionBody_places h h₂.proper _ body w₃ hbody).span_eq (fills_functionBody body)
  simpa only [statement, one_mul] using
    h₃.between (nil_notMem_of_fills (fills_functionBody body)) hspan.2

theorem localAssign_places (h : inner.Places) (hw : w₀.Over (symbol .kwLocal) w) :
    (Grammar.localAssign inner w₀.current.span).Places w₀ w statement := by
  refine .bind hw (commaList_places (fun _ => .expectName) hw.proper) fun ns w₁ hns h₁ => ?_
  refine .accept h₁ (by decide) (fun w₂ hs _ h₂ => ?_) ?_
  · have h₂ := h₂.symbol hs
    refine .bind h₂ (expressionList_places h h₂.proper) fun es w₃ hes h₃ => .pure ?_
    have hes := expressionList_places h h₂.proper es w₃ hes
    obtain ⟨last, hlast, hstop⟩ := expressions_stop hes
    cases es with
    | nil => cases hlast
    | cons e es =>
      rw [Option.mem_def.1 hlast, Option.map_some, Option.getD_some]
      have hall := h₃.between (nil_notMem_expressions _) hstop
      simpa only [statement, assigned, expressions, names, mul_assoc] using hall
  · dsimp only
    rw [pure_bind]
    refine .pure ?_
    obtain ⟨last, hlast, hstop⟩ :=
      getLast_stop fills_name (commaList_places (fun _ => .expectName) hw.proper ns w₁ hns)
    rw [Option.mem_def.1 hlast, Option.map_some, Option.getD_some]
    have hall := h₁.between (nil_notMem_list fills_name ns) hstop
    rwa [← names, ← mul_one (_ * _), ← assigned, ← statement] at hall

theorem localStatement_places (h : inner.Places) (hw : w.Proper)
    (hs : w.current.symbol = .kwLocal) :
    (Grammar.localStatement inner).Places w w statement := by
  refine .take (.refl hw) hs (by decide) fun w₁ _ h₁ => ?_
  rw [one_mul] at h₁
  refine .accept h₁ (by decide) (fun w₂ hs _ h₂ => ?_) (localAssign_places h h₁)
  have h₂ := h₂.symbol hs
  refine .bind h₂ (.expectName h₂.proper) fun n w₃ _ h₃ => ?_
  refine .bind h₃ (functionBody_places h h₃.proper _) fun body w₄ hbody h₄ => .pure ?_
  have hspan := (functionBody_places h h₃.proper _ body w₄ hbody).span_eq (fills_functionBody body)
  rw [statement]
  exact h₄.between (nil_notMem_of_fills (fills_functionBody body)) hspan.2

/-! ## Jumps -/

theorem labelStatement_places (hw : w.Proper) (hs : w.current.symbol = .doubleColon) :
    (Grammar.labelStatement : Parse _).Places w w statement := by
  refine .take (.refl hw) hs (by decide) fun w₁ _ h₁ => ?_
  refine .bind h₁ (.expectName h₁.proper) fun n w₂ _ h₂ => ?_
  refine .expect h₂ (by decide) fun w₃ hstop h₃ => .pure ?_
  simpa only [statement, one_mul] using h₃.between (nil_notMem_symbol _) hstop

theorem jumpStatement_places (hw : w.Proper) (hs : w.current.symbol = .kwGoto) :
    (Grammar.jumpStatement : Parse _).Places w w statement := by
  refine .take (.refl hw) hs (by decide) fun w₁ _ h₁ => ?_
  refine .bind h₁ (.expectName h₁.proper) fun n w₂ hn h₂ => .pure ?_
  have hspan := (Places.expectName h₁.proper n w₂ hn).span_eq (fills_name n)
  simpa only [statement, one_mul] using
    h₂.between (nil_notMem_of_fills (fills_name n)) hspan.2

/-- A semicolon may stand behind a last statement. -/
theorem accept_semicolon_places {s : Statement} (hw : w₀.Over (statement s) w)
    (hs : s.isLast = true) :
    (do let _ ← accept .semicolon; return s : Parse _).Places w₀ w
      fun s => statement s * marked (Spelling.trail s) := by
  have htrail : Spelling.trail s = 1 + Spelling.symbol .semicolon := by
    rw [Spelling.trail, if_pos hs]
  refine .accept hw (by decide) (fun w₁ hs _ h₁ => .pure ?_) (.pure ?_)
  · refine (h₁.symbol hs).mono ?_
    rw [htrail]
    gcongr
    exact marked_mono le_add_self
  · refine hw.mono (le_mul_of_one_le_right' (one_le_marked ?_))
    rw [htrail]
    exact le_self_add

theorem returnStatement_places (h : inner.Places) (hw : w.Proper)
    (hs : w.current.symbol = .kwReturn) :
    (Grammar.returnStatement inner).Places w w
      fun s => statement s * marked (Spelling.trail s) := by
  refine .take (.refl hw) hs (by decide) fun w₁ hstop h₁ => .symbol ?_
  split
  · rw [pure_bind]
    refine accept_semicolon_places ?_ rfl
    have hall := h₁.between (nil_notMem_symbol _) hstop
    rwa [one_mul, ← mul_one (symbol _), ← values, ← statement] at hall
  · refine .bind h₁ (expressionList_places h h₁.proper) fun es w₂ hes h₂ => ?_
    have hes := expressionList_places h h₁.proper es w₂ hes
    obtain ⟨last, hlast, hstop⟩ := expressions_stop hes
    refine accept_semicolon_places ?_ rfl
    cases es with
    | nil => cases hlast
    | cons e es =>
      rw [Option.mem_def.1 hlast, Option.map_some, Option.getD_some]
      have hall := h₂.between (nil_notMem_expressions _) hstop
      simpa only [statement, values, expressions, one_mul] using hall

theorem breakStatement_places (hw : w.Proper) (hs : w.current.symbol = .kwBreak) :
    (Grammar.breakStatement : Parse _).Places w w fun s =>
      statement s * marked (Spelling.trail s) := by
  refine .take (.refl hw) hs (by decide) fun w₁ hstop h₁ => ?_
  refine accept_semicolon_places ?_ rfl
  rw [statement]
  rw [one_mul] at h₁
  exact h₁.spanned (nil_notMem_symbol _) rfl hstop

/-! ## Assignments and calls -/

/-- A primary that is a target is placed as one. -/
theorem target_places {p : Primary} {f : Variable → Parse Statement} (hw : w₀.Over (primary p) w)
    (hf : ∀ v, w₀.Over (target v) w → (f v).Places w₀ w statement) :
    (Grammar.target p >>= f).Places w₀ w statement := by
  cases p with
  | var v =>
    rw [primary] at hw
    exact hf v hw
  | call c => exact Places.fail
  | parenthesized e span => exact Places.fail

theorem nextTarget_places (h : inner.Places) (hw : w.Proper) :
    (Grammar.nextTarget inner).Places w w target := by
  refine .bind (.refl hw) (primary_places h hw) fun p w₁ _ h₁ => ?_
  rw [one_mul] at h₁
  cases p with
  | var v =>
    rw [primary] at h₁
    exact .pure h₁
  | call c => exact .fail
  | parenthesized e span => exact .fail

theorem assign_places {first : Variable} (h : inner.Places) (hw : w₀.Over (target first) w) :
    (Grammar.assign inner first).Places w₀ w statement := by
  have hstart := (hw.span_eq (fills_target first)).1
  refine .separatedThen hw (by decide) (fun _ _ => nextTarget_places h) fun rest w₁ h₁ => ?_
  simp only [behind_const] at h₁
  have h₁ : w₀.Over (list .comma target (first :: rest)) w₁ := h₁
  rw [← targets_eq] at h₁
  refine .expect h₁ (by decide) fun w₂ _ h₂ => ?_
  refine .bind h₂ (expressionList_places h h₂.proper) fun es w₃ hes h₃ => .pure ?_
  obtain ⟨last, hlast, hstop⟩ := expressions_stop (expressionList_places h h₂.proper es w₃ hes)
  rw [Option.mem_def.1 hlast, statement]
  exact h₃.spanned (nil_notMem_mul (nil_notMem_expressions es)) hstart hstop

theorem assignOrCall_places (h : inner.Places) (hw : w.Proper) :
    (Grammar.assignOrCall inner).Places w w statement := by
  refine .bind (.refl hw) (primary_places h hw) fun p w₁ _ h₁ => .symbol ?_
  rw [one_mul] at h₁
  split
  · exact target_places h₁ fun v hv => assign_places h hv
  · exact target_places h₁ fun v hv => assign_places h hv
  · split
    · refine .pure ?_
      rwa [primary, ← statement] at h₁
    · exact .fail
    · exact .fail

/-! ## Statements and blocks -/

theorem statement_places (h : inner.Places) (hw : w.Proper) :
    (Grammar.statement inner).Places w w statement := by
  refine .symbol ?_
  split
  · next hs => exact conditional_places h hw hs
  · next hs => exact whileLoop_places h hw hs
  · next hs => exact doBlock_places h hw hs
  · next hs => exact forLoop_places h hw hs
  · next hs => exact repeatLoop_places h hw hs
  · next hs => exact functionStatement_places h hw hs
  · next hs => exact localStatement_places h hw hs
  · next hs => exact labelStatement_places hw hs
  · next hs => exact jumpStatement_places hw hs
  · exact assignOrCall_places h hw

/-- The words before the next statement of a block, the last one before it standing first. -/
def upTo (ss : List Statement) : Language Mark :=
  marked Spelling.semicolons * statements none ss.reverse

theorem upTo_cons (ss : List Statement) (s : Statement) :
    upTo (s :: ss) =
      upTo ss * marked (Spelling.separation ss.head? s) * statement s * marked (Spelling.trail s) := by
  rw [upTo, upTo, List.reverse_cons, statements_concat, List.getLast?_reverse, Option.or_none]
  simp only [mul_assoc]

/-- Behind a statement that others may follow, one more semicolon makes no difference. -/
theorem upTo_mul_semicolon_le {ss : List Statement} (hss : ∀ s ∈ ss, s.isLast = false) :
    upTo ss * symbol .semicolon ≤ upTo ss := by
  have hsemicolons : marked Spelling.semicolons * symbol .semicolon ≤ marked Spelling.semicolons :=
    (marked_mul_le _ _).trans (marked_mono Spelling.semicolons_mul_semicolon_le)
  cases ss with
  | nil =>
    rw [upTo, List.reverse_nil, statements, mul_one]
    exact hsemicolons
  | cons s ss =>
    rw [upTo_cons, Spelling.trail_of_open (hss s List.mem_cons_self), mul_assoc]
    exact mul_le_mul_right hsemicolons _

/-- What has been taken between two statements of a block. Where a parenthesis is next and the last
statement could have gone on with it, a semicolon has been taken last. -/
structure Between (w₀ : Window) (ss : List Statement) (w : Window) : Prop where
  marked : w₀.Over (upTo ss) w
  isOpen : ∀ s ∈ ss, s.isLast = false
  paren : w.current.symbol = .leftParen → ss.head?.any Statement.endsOpen = true →
    w₀.Over (upTo ss * symbol .semicolon) w

/-- A statement that is not held for a part of the one before it is placed behind it. -/
theorem Between.statement {ss : List Statement} {s : Statement} {L : Language Letter} {w' : Window}
    (h : Between w₀ ss w) (hparen : s.startsWithParen = true → w.current.symbol = .leftParen)
    (hs : w.Over (Placing.statement s * Placing.marked L) w') (hL : L ≤ Spelling.trail s) :
    w₀.Over (upTo (s :: ss)) w' := by
  have hs : w.Over (Placing.statement s * Placing.marked (Spelling.trail s)) w' :=
    hs.mono (mul_le_mul_right (marked_mono hL) _)
  rw [upTo_cons, Spelling.separation, mul_assoc]
  split
  · next hopen =>
    obtain ⟨hopen, hstarts⟩ := Bool.and_eq_true_iff.1 hopen
    exact (h.paren (hparen hstarts) hopen).mul hs
  · refine (h.marked.mul hs).mono (mul_le_mul_left ?_ _)
    exact le_mul_of_one_le_right' (one_le_marked le_rfl)

theorem statementStep_places {terminators : List Symbol} {ss : List Statement} (h : inner.Places)
    (hsound : inner.Sound depth) (hbetween : Between w₀ ss w) :
    (Grammar.statementStep inner terminators ss).Ensures w (Sum.elim (Between w₀)
      fun ss w => w₀.Over (marked Spelling.semicolons * statements none ss) w) := by
  have hw := hbetween.marked.proper
  show Parse.Ensures (if w.current.symbol = .eof ∨ w.current.symbol ∈ terminators then _ else _) w _
  split
  · intro r w' hok
    cases hok
    exact hbetween.marked
  · split
    · next hs =>
      intro r w' hok
      obtain ⟨t, w₁, hconsume, hok⟩ := bind_eq_ok_iff.1 hok
      cases hok
      obtain ⟨-, htakes, -⟩ := Window.consume_takes hw (by simp [hs]) hconsume
      have htaken := (hbetween.marked.mul htakes.exactly).symbol hs
      exact ⟨htaken.mono (upTo_mul_semicolon_le hbetween.isOpen), hbetween.isOpen,
        fun _ _ => htaken⟩
    · next hs =>
      intro r w' hok
      obtain ⟨s, w₁, hreturn, hok⟩ := bind_eq_ok_iff.1 hok
      cases hok
      have hlast := ((Read.returnStatement_meets hsound hw hs).ok hreturn).2.1
      refine hbetween.statement ?_ (returnStatement_places h hw hs s _ hreturn) le_rfl
      simp [hlast.paren]
    · next hs =>
      intro r w' hok
      obtain ⟨s, w₁, hbreak, hok⟩ := bind_eq_ok_iff.1 hok
      cases hok
      have hlast := ((@Read.breakStatement_meets depth _ hw hs).ok hbreak).2.1
      refine hbetween.statement ?_ (breakStatement_places hw hs s _ hbreak) le_rfl
      simp [hlast.paren]
    · intro r w' hok
      obtain ⟨s, w₁, hstatement, hok⟩ := bind_eq_ok_iff.1 hok
      cases hok
      obtain ⟨-, hfrom, hupTo⟩ := (Read.statement_meets hsound hw).ok hstatement
      have hplaced := statement_places h hw s _ hstatement
      refine ⟨hbetween.statement hfrom.paren ?_ (Spelling.one_le_trail s),
        List.forall_mem_cons.2 ⟨hfrom.isLast, hbetween.isOpen⟩, fun hparen hopen => ?_⟩
      · exact hplaced.mono (le_mul_of_one_le_right' (one_le_marked le_rfl))
      · have hsuffix := hupTo.suffix hopen
        rw [hparen] at hsuffix
        cases hsuffix

theorem block_places (h : inner.Places) (hsound : inner.Sound depth) (terminators : List Symbol)
    (hw : w.Proper) :
    (Grammar.block inner terminators).Places w w (block w.current.span.start) := by
  refine .current ?_
  intro b w' hok
  obtain ⟨ss, w₁, hloop, hok⟩ := bind_eq_ok_iff.1 hok
  cases hok
  have hstart : Between w [] w := by
    refine ⟨⟨[], ?_, .refl hw⟩, fun _ hs => absurd hs List.not_mem_nil,
      fun _ hopen => absurd hopen Bool.false_ne_true⟩
    rw [upTo, List.reverse_nil, statements, mul_one]
    exact one_le_marked one_le_kstar Language.nil_mem_one
  have hss := Places.loop_ensures (fun ss w => statementStep_places h hsound) hstart ss _ hloop
  rw [block]
  exact Window.Over.mono (le_provided rfl _) hss

/-! ## Levels -/

theorem places_ofDepth (depth : Nat) : (Level.ofDepth depth).Places := by
  induction depth with
  | zero => exact ⟨fun _ _ _ => .fail, fun _ _ _ => .fail⟩
  | succ depth ih =>
    exact ⟨fun terminators _ hw => block_places ih (Read.sound_ofDepth depth) terminators hw,
      fun limit _ hw => operand_places ih hw limit⟩

theorem chunk_places (hw : w.Proper) :
    (Grammar.chunk (Level.ofDepth depth)).Places w w (block w.current.span.start) := by
  refine .bind (.refl hw) ((places_ofDepth depth).block [] w hw) fun b w₁ _ h₁ => .symbol ?_
  rw [one_mul] at h₁
  split
  · exact .pure h₁
  · exact .fail

end LuaSource.Placing
