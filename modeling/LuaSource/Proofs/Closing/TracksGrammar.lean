-- SUMMARY: Every production leaves the openers that it finds, and tells of the innermost one.
import LuaSource.Grammar.Statement
import LuaSource.Proofs.Closing.Tracks

/-!
# Openers in the grammar

Each production is specified by the openers before and behind it, given that the level inside it
leaves those that it finds. Where a construct is closed, the innermost opener is the one that it
began with.
-/

namespace LuaSource

open Reading

/-- A level whose blocks and operands leave the openers that they find. -/
structure Level.Tracks (inner : Level) : Prop where
  block : ∀ terminators os, Opener.OutsideHead os →
    (inner.block terminators).Tracks (At os) fun _ => Behind os
  operand : ∀ limit os, (inner.operand limit).Tracks (At os) fun _ => At os

namespace Tracking

open Parse

variable {inner : Level} {os : List Opener} {w : Window} {r : Reading} {t : Token}

theorem outsideHead_cons : Opener.OutsideHead (⟨t, false⟩ :: os) := by
  rintro o ⟨⟩
  rfl

theorem expression_tracks (h : inner.Tracks) :
    (Grammar.expression inner).Tracks (At os) fun _ => At os := h.operand 0 os

theorem expressionList_tracks (h : inner.Tracks) :
    (Grammar.expressionList inner).Tracks (At os) fun _ => At os :=
  commaList_tracks (expression_tracks h)

/-- A block with what closes it. -/
theorem block_closed {β : Type} (h : inner.Tracks) {terminators : List Symbol} {c opener : Symbol}
    {f : Block → Token → Parse β} {post : β → Window → Reading → Prop}
    (ht : t.symbol = opener) (hc : opener.closer? = some c)
    (hf : ∀ b t', (f b t').Tracks (At os) post) :
    (do
      let body ← inner.block terminators
      let closing ← expectClosing c opener t.span.start.line
      f body closing).Tracks (At (⟨t, false⟩ :: os)) post :=
  (h.block terminators _ outsideHead_cons).bind fun b =>
    (expectClosing_tracks ht hc).bind fun t' => hf b t'

/-! ## Functions -/

theorem parameterStep_tracks (names : List Name) :
    (Grammar.parameterStep names : Parse _).Tracks (At os) fun _ => At os := by
  refine (accept_at (by decide) (by decide)).bind fun t => ?_
  cases t with
  | some t => exact .pure fun _ _ h => h
  | none =>
    refine expectName_tracks.bind fun _ => (accept_at (by decide) (by decide)).bind fun t => ?_
    cases t <;> exact .pure fun _ _ h => h

theorem functionBody_tracks (h : inner.Tracks) (ht : t.symbol = .kwFunction) :
    (Grammar.functionBody inner t.span.start.line).Tracks (At (⟨t, false⟩ :: os))
      fun _ => At os := by
  refine .opener rfl nofun fun opening hopening => ?_
  have hclosing : opening.symbol.closer? = some .rightParen := by
    rw [hopening]
    rfl
  have hrest : ∀ r : List Name × Bool, (do
      let _ ← expect .rightParen
      let body ← inner.block [.kwEnd]
      let closing ← expectClosing .kwEnd .kwFunction t.span.start.line
      return (⟨r.1, r.2, body, Span.between opening.span closing.span⟩ : FunctionBody)).Tracks
        (At (⟨opening, false⟩ :: ⟨t, false⟩ :: os)) fun _ => At os := fun _ =>
    (@expect_closer _ _ ⟨opening, false⟩ hclosing).bind fun _ =>
      block_closed h ht rfl fun _ _ => .pure fun _ _ h => h
  exact .symbol fun _ => .ite_bind (.pure fun _ _ h => h) (loop_at parameterStep_tracks []) hrest

/-! ## Tables -/

theorem field_tracks (h : inner.Tracks) :
    (Grammar.field inner).Tracks (At os) fun _ => At os := by
  have hpositional : (do return .positional (← Grammar.expression inner) : Parse Field).Tracks
      (At os) fun _ => At os := (expression_tracks h).give
  intro w r hw hr
  refine .symbol ?_
  split
  · next hs =>
    exact .pass hw hs (by decide) (by decide) hr.behind fun _ => (expression_tracks h).bind
      fun _ => (expect_neutral (by decide) (by decide)).bind fun _ =>
        (expect_neutral (by decide) (by decide)).bind fun _ => (expression_tracks h).give
  · refine .followingSymbol ?_
    split
    · next hnext =>
      refine (expectName_tracks w r hw hr).bind hw fun n w' r' hw' hname hr' => ?_
      have hcurrent := congrArg (·.symbol) ((expectName_meets hw).ok hname).2.2
      exact .pass hw' (hcurrent.trans hnext) (by decide) (by decide) hr'.behind fun _ =>
        (expression_tracks h).give
    · exact hpositional w r hw hr
  · exact hpositional w r hw hr

theorem acceptSeparator_tracks :
    (Grammar.acceptSeparator : Parse _).Tracks (At os) fun _ => At os := by
  refine (accept_at (by decide) (by decide)).bind fun t => ?_
  cases t with
  | some t => exact .pure fun _ _ h => h
  | none => exact (accept_at (by decide) (by decide)).give

theorem fieldStep_tracks (h : inner.Tracks) (fields : List Field) :
    (Grammar.fieldStep inner fields).Tracks (At os) fun _ => At os :=
  .symbol fun _ => .ite (.pure fun _ _ h => h) ((field_tracks h).bind fun _ =>
    acceptSeparator_tracks.bind fun _ => .ite (.pure fun _ _ h => h) (.pure fun _ _ h => h))

theorem table_tracks (h : inner.Tracks) : (Grammar.table inner).Tracks (At os) fun _ => At os :=
  .opener rfl nofun fun _ hopening => (loop_at (fieldStep_tracks h) []).bind fun _ =>
    (expectClosing_at hopening rfl).give

/-! ## Calls and indexes -/

theorem arguments_tracks (h : inner.Tracks) :
    (Grammar.arguments inner).Tracks (At os) fun _ => At os := by
  intro w r hw hr
  refine .symbol ?_
  split
  · next hs =>
    refine .onSameLine fun joined => ?_
    split
    · exact .open hw hs rfl nofun hr.behind (.symbol fun _ => .ite_bind (.pure fun _ _ h => h)
        (expressionList_tracks h) fun _ => (expectClosing_at hs rfl).give)
    · exact .fail (fun _ => rfl) hr.2
  · exact (table_tracks h w r hw hr).give hw
  · next hs => exact .pass hw hs (by decide) (by decide) hr.behind fun _ => .pure fun _ _ h => h
  · exact .fail (fun _ => rfl) hr.2

theorem primaryHead_tracks (h : inner.Tracks) :
    (Grammar.primaryHead inner).Tracks (At os) fun _ => At os := by
  intro w r hw hr
  refine .symbol ?_
  split
  · exact (expectName_tracks w r hw hr).give hw
  · next hs =>
    exact .open hw hs rfl nofun hr.behind
      ((expression_tracks h).bind fun _ => (expectClosing_at hs rfl).give)
  · exact .fail (fun _ => rfl) hr.2

theorem suffixStep_tracks (h : inner.Tracks) (p : Primary) :
    (Grammar.suffixStep inner p).Tracks (At os) fun _ => At os := by
  have harguments : (do
      let args ← Grammar.arguments inner
      return .inl (.call (.function p args (Span.between p.span args.span))) :
      Parse (Primary ⊕ Primary)).Tracks (At os) fun _ => At os :=
    (arguments_tracks h).give
  intro w r hw hr
  refine .symbol ?_
  split
  · next hs =>
    exact .pass hw hs (by decide) (by decide) hr.behind fun _ => expectName_tracks.give
  · next hs =>
    exact .pass hw hs (by decide) (by decide) hr.behind fun _ => (expression_tracks h).bind
      fun _ => (expect_neutral (by decide) (by decide)).give
  · next hs =>
    exact .pass hw hs (by decide) (by decide) hr.behind fun _ => expectName_tracks.bind fun _ =>
      (arguments_tracks h).give
  · exact harguments w r hw hr
  · exact harguments w r hw hr
  · exact harguments w r hw hr
  · exact .pure hr

theorem primary_tracks (h : inner.Tracks) :
    (Grammar.primary inner).Tracks (At os) fun _ => At os :=
  (primaryHead_tracks h).bind fun p => loop_at (suffixStep_tracks h) p

/-! ## Operands -/

theorem isNeutral_of_unaryOperator {s : Symbol} {op : UnaryOperator}
    (h : UnaryOperator.ofSymbol? s = some op) :
    s.isNeutral = true ∧ s ≠ .eof ∧ s ≠ .kwReturn := by
  rw [← UnaryOperator.symbol_of_ofSymbol? h]
  cases op <;> decide

theorem isNeutral_of_binaryOperator {s : Symbol} {op : BinaryOperator}
    (h : BinaryOperator.ofSymbol? s = some op) :
    s.isNeutral = true ∧ s ≠ .eof ∧ s ≠ .kwReturn := by
  rw [← BinaryOperator.symbol_of_ofSymbol? h]
  cases op <;> decide

theorem simpleOperand_tracks (h : inner.Tracks) :
    (Grammar.simpleOperand inner).Tracks (At os) fun _ => At os := by
  intro w r hw hr
  refine .current ?_
  split
  · next op hop =>
    obtain ⟨hn, hne⟩ := isNeutral_of_unaryOperator hop
    exact .pass hw rfl hn hne hr.behind fun _ => (h.operand _ os).give
  · split
    · next hs => exact .pass hw hs (by decide) (by decide) hr.behind fun _ => .pure fun _ _ h => h
    · next hs => exact .pass hw hs (by decide) (by decide) hr.behind fun _ => .pure fun _ _ h => h
    · next hs => exact .pass hw hs (by decide) (by decide) hr.behind fun _ => .pure fun _ _ h => h
    · next hs => exact .pass hw hs (by decide) (by decide) hr.behind fun _ => .pure fun _ _ h => h
    · next hs =>
      refine .current ?_
      rw [content_bind]
      split
      · exact .pass hw hs (by decide) (by decide) hr.behind fun _ => .pure fun _ _ h => h
      · exact .fail (fun _ => rfl) hr.2
    · next hs => exact .pass hw hs (by decide) (by decide) hr.behind fun _ => .pure fun _ _ h => h
    · next hs =>
      exact .open hw hs rfl nofun hr.behind (functionBody_tracks h hs).give
    · exact (table_tracks h w r hw hr).give hw
    · exact (primary_tracks h w r hw hr).give hw
    · exact (primary_tracks h w r hw hr).give hw
    · exact .fail (fun _ => rfl) hr.2

theorem operatorStep_tracks (h : inner.Tracks) (limit : Nat) (left : Expression) :
    (Grammar.operatorStep inner limit left).Tracks (At os) fun _ => At os := by
  intro w r hw hr
  refine .symbol ?_
  split
  · next op hop =>
    split
    · exact .pure hr
    · obtain ⟨hn, hne⟩ := isNeutral_of_binaryOperator hop
      exact .pass hw rfl hn hne hr.behind fun _ => (h.operand _ os).give
  · exact .pure hr

theorem operand_tracks (h : inner.Tracks) (limit : Nat) :
    (Grammar.operand inner limit).Tracks (At os) fun _ => At os :=
  (simpleOperand_tracks h).bind fun left => loop_at (operatorStep_tracks h limit) left

/-! ## Loops and conditions -/

theorem doBlock_tracks (h : inner.Tracks) (hos : Opener.OutsideHead os) (hw : w.Proper)
    (hs : w.current.symbol = .kwDo) (hr : At os w r) :
    (Grammar.doBlock inner).TracksAt w r fun _ => At os :=
  .open hw hs rfl (fun _ => hos) hr.behind
    (block_closed h hs rfl fun _ _ => .pure fun _ _ h => h)

theorem whileLoop_tracks (h : inner.Tracks) (hw : w.Proper)
    (hs : w.current.symbol = .kwWhile) (hr : At os w r) :
    (Grammar.whileLoop inner).TracksAt w r fun _ => At os :=
  .open hw hs rfl nofun hr.behind ((expression_tracks h).bind fun _ => expect_do.bind fun _ =>
    block_closed h hs rfl fun _ _ => .pure fun _ _ h => h)

theorem repeatLoop_tracks (h : inner.Tracks) (hw : w.Proper)
    (hs : w.current.symbol = .kwRepeat) (hr : At os w r) :
    (Grammar.repeatLoop inner).TracksAt w r fun _ => At os :=
  .open hw hs rfl nofun hr.behind
    (block_closed h hs rfl fun _ _ => (expression_tracks h).give)

theorem clause_tracks (h : inner.Tracks) (hos : Opener.OutsideHead os) (keyword : Span) :
    (Grammar.clause inner keyword).Tracks (At os) fun _ => Behind os :=
  (expression_tracks h).bind fun _ => (expect_neutral (by decide) (by decide)).bind fun _ =>
    (h.block _ os hos).give

theorem conditional_tracks (h : inner.Tracks) (hw : w.Proper)
    (hs : w.current.symbol = .kwIf) (hr : At os w r) :
    (Grammar.conditional inner).TracksAt w r fun _ => At os := by
  have hclause : ∀ keyword : Span, (Grammar.clause inner keyword).Tracks
      (At (⟨w.current, false⟩ :: os)) fun _ => Behind (⟨w.current, false⟩ :: os) :=
    clause_tracks h outsideHead_cons
  refine .open hw hs rfl nofun hr.behind ((hclause _).bind fun first => ?_)
  refine (separated_tracks (by decide) (by decide) (fun _ _ h => h) (fun _ => hclause _)
    first).bind fun clauses => ?_
  have hrest : ∀ otherwise : Option Block, (do
      let closing ← expectClosing .kwEnd .kwIf w.current.span.start.line
      return Statement.conditional clauses otherwise
        (Span.between w.current.span closing.span) : Parse Statement).Tracks
        (Behind (⟨w.current, false⟩ :: os)) fun _ => At os :=
    fun _ => (expectClosing_tracks hs rfl).give
  refine (accept_tracks (by decide) (by decide) fun _ _ h => h).bind fun t => ?_
  cases t with
  | some t =>
    exact ((h.block _ _ outsideHead_cons).map (g := some) fun _ _ _ h => h).bind hrest
  | none => exact (Tracks.pure fun _ _ h => h).bind hrest

theorem forBody_tracks (h : inner.Tracks) (ht : t.symbol = .kwFor) :
    (Grammar.forBody inner t.span.start.line).Tracks (At (⟨t, true⟩ :: os)) fun _ => At os :=
  expect_do.bind fun _ => block_closed h ht rfl fun _ _ => .pure fun _ _ h => h

theorem numericFor_tracks (h : inner.Tracks) (ht : t.symbol = .kwFor) :
    (Grammar.numericFor inner t.span).Tracks (At (⟨t, true⟩ :: os)) fun _ => At os := by
  refine expectName_tracks.bind fun counter => ?_
  refine (expect_neutral (by decide) (by decide)).bind fun _ => ?_
  refine (expression_tracks h).bind fun start => ?_
  refine (expect_neutral (by decide) (by decide)).bind fun _ => ?_
  refine (expression_tracks h).bind fun limit => ?_
  have hrest : ∀ step : Option Expression,
      (Grammar.forBody inner t.span.start.line >>= fun r =>
        pure (Statement.numericFor counter start limit step r.1
          (Span.between t.span r.2.span))).Tracks (At (⟨t, true⟩ :: os)) fun _ => At os :=
    fun _ => (forBody_tracks h ht).give
  refine (accept_at (by decide) (by decide)).bind fun t => ?_
  cases t with
  | some t => exact ((expression_tracks h).map (g := some) fun _ _ _ h => h).bind hrest
  | none => exact (Tracks.pure fun _ _ h => h).bind hrest

theorem genericFor_tracks (h : inner.Tracks) (ht : t.symbol = .kwFor) :
    (Grammar.genericFor inner t.span).Tracks (At (⟨t, true⟩ :: os)) fun _ => At os :=
  (commaList_tracks expectName_tracks).bind fun _ =>
    (expect_neutral (by decide) (by decide)).bind fun _ => (expressionList_tracks h).bind fun _ =>
      (forBody_tracks h ht).give

theorem forLoop_tracks (h : inner.Tracks) (hw : w.Proper)
    (hs : w.current.symbol = .kwFor) (hr : At os w r) :
    (Grammar.forLoop inner).TracksAt w r fun _ => At os := by
  refine .open hw hs rfl nofun hr.behind fun w' r' hw' hr' => .symbol ?_
  split
  · next hname =>
    refine .followingSymbol ?_
    split
    · exact numericFor_tracks h hs w' r' hw' hr'
    · exact genericFor_tracks h hs w' r' hw' hr'
    · exact genericFor_tracks h hs w' r' hw' hr'
    · exact .pass hw' hname (by decide) (by decide) hr'.behind fun _ => .fail fun _ => rfl
  · exact .fail (fun _ => rfl) hr'.2

/-! ## Functions and local variables -/

theorem functionName_tracks : (Grammar.functionName : Parse _).Tracks (At os) fun _ => At os := by
  refine expectName_tracks.bind fun first => ?_
  refine (separated_tracks (by decide) (by decide) (fun _ _ h => h.behind)
    (fun _ => expectName_tracks) first).bind fun path => ?_
  refine (accept_at (by decide) (by decide)).bind fun t => ?_
  cases t with
  | some t => exact expectName_tracks.give
  | none => exact .pure fun _ _ h => h

theorem functionStatement_tracks (h : inner.Tracks) (hw : w.Proper)
    (hs : w.current.symbol = .kwFunction) (hr : At os w r) :
    (Grammar.functionStatement inner).TracksAt w r fun _ => At os :=
  .open hw hs rfl nofun hr.behind
    (functionName_tracks.bind fun _ => (functionBody_tracks h hs).give)

theorem localAssign_tracks (h : inner.Tracks) (opening : Span) :
    (Grammar.localAssign inner opening).Tracks (At os) fun _ => At os := by
  refine (commaList_tracks expectName_tracks).bind fun names => ?_
  refine (accept_at (by decide) (by decide)).bind fun t => ?_
  cases t with
  | some t => exact (expressionList_tracks h).give
  | none => exact .pure fun _ _ h => h

theorem localStatement_tracks (h : inner.Tracks) (hw : w.Proper)
    (hs : w.current.symbol = .kwLocal) (hr : At os w r) :
    (Grammar.localStatement inner).TracksAt w r fun _ => At os := by
  refine .pass hw hs (by decide) (by decide) hr.behind fun _ w r hw hr => ?_
  refine .accept (fun hs => ?_) (localAssign_tracks h _ w r hw hr)
  refine .open hw hs rfl nofun hr.behind (expectName_tracks.bind fun name => ?_)
  exact (functionBody_tracks h hs).give

/-! ## Jumps -/

theorem labelStatement_tracks (hw : w.Proper) (hs : w.current.symbol = .doubleColon)
    (hr : At os w r) : (Grammar.labelStatement : Parse _).TracksAt w r fun _ => At os :=
  .pass hw hs (by decide) (by decide) hr.behind fun _ => expectName_tracks.bind fun _ =>
    (expect_neutral (by decide) (by decide)).give

theorem jumpStatement_tracks (hw : w.Proper) (hs : w.current.symbol = .kwGoto)
    (hr : At os w r) : (Grammar.jumpStatement : Parse _).TracksAt w r fun _ => At os :=
  .pass hw hs (by decide) (by decide) hr.behind fun _ => expectName_tracks.give

theorem mem_endsValues_of_mem_blockEnds {s : Symbol} (h : s ∈ Symbol.blockEnds) :
    s ∈ Grammar.endsValues := by
  revert s
  decide

/-- Behind `return` there are values, or the block has to end. -/
theorem returnStatement_tracks (h : inner.Tracks) (hw : w.Proper)
    (hs : w.current.symbol = .kwReturn) (hr : At os w r) :
    (Grammar.returnStatement inner).TracksAt w r fun _ => Behind os := by
  have hread : Opener.read r.openers w.current = os := by
    rw [Opener.read_neutral (by rw [hs]; decide)]
    exact hr.1
  refine .take hw (by rw [hs]; decide) fun w' hw' => .symbol ?_
  have hrest : ∀ values : List Expression, (do
      let _ ← accept .semicolon
      let last := (values.getLast?.map Expression.span).getD w.current.span
      return Statement.returnValues values (Span.between w.current.span last) :
        Parse Statement).Tracks (Behind os) fun _ => Behind os := fun values => by
    refine (accept_tracks (by decide) (by decide) fun _ _ h => h).bind fun t => ?_
    cases t with
    | some t => exact .pure fun _ _ h => h.behind
    | none => exact .pure fun _ _ h => h
  split
  · exact hrest [] w' _ hw' hread
  · next hends =>
    have hcalm : (r.read w.current).Calm w' := fun _ hend =>
      hends (mem_endsValues_of_mem_blockEnds hend)
    exact (expressionList_tracks h w' _ hw' ⟨hread, hcalm⟩).bind hw' fun values w'' r' hw'' _ hr' =>
      hrest values w'' r' hw'' hr'.behind

theorem breakStatement_tracks (hw : w.Proper) (hs : w.current.symbol = .kwBreak)
    (hr : At os w r) : (Grammar.breakStatement : Parse _).TracksAt w r fun _ => At os :=
  .pass hw hs (by decide) (by decide) hr.behind fun _ => (accept_at (by decide) (by decide)).give

/-! ## Assignments and calls -/

theorem target_tracks (p : Primary) :
    (Grammar.target p : Parse _).Tracks (At os) fun _ => At os := by
  unfold Grammar.target
  split
  · exact .pure fun _ _ h => h
  · exact .fail fun _ => rfl

theorem assign_tracks (h : inner.Tracks) (first : Variable) :
    (Grammar.assign inner first).Tracks (At os) fun _ => At os := by
  have hnext : (Grammar.nextTarget inner).Tracks (At os) fun _ => At os :=
    (primary_tracks h).bind target_tracks
  exact (separated_tracks (by decide) (by decide) (fun _ _ h => h.behind) (fun _ => hnext)
    first).bind fun _ => (expect_neutral (by decide) (by decide)).bind fun _ =>
      (expressionList_tracks h).give

theorem assignOrCall_tracks (h : inner.Tracks) :
    (Grammar.assignOrCall inner).Tracks (At os) fun _ => At os := by
  refine (primary_tracks h).bind fun p => .symbol fun s => ?_
  split
  · exact (target_tracks p).bind (assign_tracks h)
  · exact (target_tracks p).bind (assign_tracks h)
  · split
    · exact .pure fun _ _ h => h
    · exact .fail fun _ => rfl
    · exact .fail fun _ => rfl

/-! ## Blocks -/

theorem statement_tracks (h : inner.Tracks) (hos : Opener.OutsideHead os) :
    (Grammar.statement inner).Tracks (At os) fun _ => At os := by
  intro w r hw hr
  refine .symbol ?_
  split
  · next hs => exact conditional_tracks h hw hs hr
  · next hs => exact whileLoop_tracks h hw hs hr
  · next hs => exact doBlock_tracks h hos hw hs hr
  · next hs => exact forLoop_tracks h hw hs hr
  · next hs => exact repeatLoop_tracks h hw hs hr
  · next hs => exact functionStatement_tracks h hw hs hr
  · next hs => exact localStatement_tracks h hw hs hr
  · next hs => exact labelStatement_tracks hw hs hr
  · next hs => exact jumpStatement_tracks hw hs hr
  · exact assignOrCall_tracks h w r hw hr

/-- Where a block goes on, it does not come from a `return`. -/
theorem statementStep_tracks (h : inner.Tracks) (hos : Opener.OutsideHead os)
    (terminators : List Symbol) (statements : List Statement) :
    (Grammar.statementStep inner terminators statements).Tracks (At os) fun c w r =>
      c.elim (fun _ => At os w r) fun _ => Behind os w r := by
  intro w r hw hr
  refine .symbol ?_
  split
  · exact .pure hr.behind
  · split
    · next hs => exact .pass hw hs (by decide) (by decide) hr.behind fun _ => .pure fun _ _ h => h
    · next hs =>
      exact (returnStatement_tracks h hw hs hr).bind hw fun _ _ _ _ _ hr' => .pure hr'
    · next hs =>
      exact (breakStatement_tracks hw hs hr).bind hw fun _ _ _ _ _ hr' => .pure hr'.behind
    · exact (statement_tracks h hos w r hw hr).bind hw fun _ _ _ _ _ hr' => .pure hr'

theorem block_tracks (h : inner.Tracks) (terminators : List Symbol)
    (hos : Opener.OutsideHead os) :
    (Grammar.block inner terminators).Tracks (At os) fun _ => Behind os :=
  .current fun _ => (loop_tracks (statementStep_tracks h hos terminators) []).give

/-! ## Levels -/

theorem tracks_ofDepth (depth : Nat) : (Level.ofDepth depth).Tracks := by
  induction depth with
  | zero =>
    exact ⟨fun _ _ _ _ _ _ _ => .ungrammatical fun _ => rfl,
      fun _ _ _ _ _ _ => .ungrammatical fun _ => rfl⟩
  | succ depth ih =>
    exact ⟨fun terminators _ hos => block_tracks ih terminators hos,
      fun limit _ => operand_tracks ih limit⟩

/-- Behind the last block nothing is open, so that no opener is to blame. -/
theorem chunk_tracks (depth : Nat) :
    (Grammar.chunk (Level.ofDepth depth)).Tracks (At []) fun _ => Behind [] := by
  refine ((tracks_ofDepth depth).block [] [] nofun).bind fun b w r hw hr => .symbol ?_
  split
  · exact .pure hr
  · exact .here rfl rfl ⟨nofun, fun _ _ o os ho => by cases hr.symm.trans ho⟩

end Tracking

end LuaSource
