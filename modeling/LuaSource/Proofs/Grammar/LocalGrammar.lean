-- SUMMARY: The parsers of the grammar look at no token behind the one at which they stop.
import LuaSource.Grammar.Statement
import LuaSource.Proofs.Grammar.Locality
import LuaSource.Proofs.Grammar.Rules

/-!
# Locality of the grammar

Each production is local if the level inside it is. Two of them decide by the token behind the
current one, a field and a `for`; both do so at a name, which they take in any case.
-/

namespace LuaSource

/-- A level whose blocks and operands look at no token behind the one at which they stop. -/
structure Level.Local (inner : Level) : Prop where
  block : ∀ terminators, (inner.block terminators).Local
  operand : ∀ limit, (inner.operand limit).Local
  name : ∀ limit w, w.Proper → w.current.symbol = .name →
    (inner.operand limit).LocalAt w 1 fun _ => 1

namespace Local

open Parse Parsing

variable {inner : Level} {w : Window}

theorem expression_local (h : inner.Local) : (Grammar.expression inner).Local := h.operand 0

theorem expressionList_local (h : inner.Local) : (Grammar.expressionList inner).Local :=
  commaList_local (expression_local h)

/-! ## Functions -/

theorem parameterStep_local : StepLocal Grammar.parameterStep := by
  intro names w hw
  refine (accept_localAt (m := 0) hw (by decide)).bind hw le_rfl fun t w' hw' _ => ?_
  cases t with
  | some t => exact .pure rfl
  | none =>
    refine (expectName_localAt hw').bind hw' le_rfl fun name w'' hw'' _ => ?_
    refine (accept_localAt (m := 0) hw'' (by decide)).bind hw'' le_rfl fun t _ _ _ => ?_
    cases t <;> exact .pure (by simp)

theorem functionBody_local (h : inner.Local) (line : Nat) :
    (Grammar.functionBody inner line).Local := by
  refine (expect_local (by decide)).bind fun opening => ?_
  have hrest : ∀ r : List Name × Bool, Parse.Local (do
      let _ ← expect .rightParen
      let body ← inner.block [.kwEnd]
      let closing ← expectClosing .kwEnd .kwFunction line
      return (⟨r.1, r.2, body, Span.between opening.span closing.span⟩ : FunctionBody)) :=
    fun r => (expect_local (by decide)).bind fun _ => (h.block _).bind fun _ =>
      (expectClosing_local (by decide)).bind fun _ => .pure
  refine .symbol fun s => ?_
  by_cases hs : s = .rightParen
  · rw [if_pos hs]
    exact Parse.Local.pure.bind hrest
  · rw [if_neg hs]
    exact (loop_local parameterStep_local []).bind hrest

/-! ## Tables -/

theorem field_local (h : inner.Local) : (Grammar.field inner).Local := by
  intro w hw
  have hpositional : (do return .positional (← Grammar.expression inner) : Parse Field).Local :=
    (expression_local h).bind fun _ => .pure
  refine .symbol hw ?_
  split
  · next hs =>
    refine (LocalAt.take (m := 0) hw (by simp [hs]) (Nat.zero_le 1) fun _ => ?_).zero
    exact (expression_local h).bind fun _ => (expect_local (by decide)).bind fun _ =>
      (expect_local (by decide)).bind fun _ => (expression_local h).bind fun _ => .pure
  · next hs =>
    refine (LocalAt.followingSymbol (n := fun _ => 1) hw (fun _ => le_rfl) ?_).zero
    split
    · next hnext =>
      refine (expectName_localAt_name hw hs).bind hw le_rfl fun name w' hw' hname => ?_
      have hcurrent := ((expectName_meets hw).ok hname).2.2
      refine (LocalAt.take (m := 0) hw' ?_ (Nat.zero_le 1) fun _ => ?_).zero
      · rw [hcurrent, hnext]
        decide
      · exact (expression_local h).bind fun _ => .pure
    · exact (h.name 0 w hw hs).thenLocal hw le_rfl fun _ => .pure
  · exact hpositional w hw

theorem acceptSeparator_localAt (hw : w.Proper) :
    (Grammar.acceptSeparator : Parse _).LocalAt w 0 fun b => if b then 1 else 0 := by
  refine (accept_localAt (m := 0) hw (by decide)).bind hw le_rfl fun t w' hw' _ => ?_
  cases t with
  | some t => exact .pure rfl
  | none =>
    refine (accept_localAt (m := 0) hw' (by decide)).bind hw' le_rfl fun t _ _ _ => ?_
    cases t <;> exact .pure rfl

theorem fieldStep_local (h : inner.Local) : StepLocal (Grammar.fieldStep inner) := by
  intro fields w hw
  refine .symbol hw ?_
  split
  · exact .pure rfl
  · refine (field_local h w hw).bind hw le_rfl fun f w' hw' _ => ?_
    refine (acceptSeparator_localAt hw').bind hw' le_rfl fun b _ _ _ => ?_
    cases b <;> exact .pure rfl

theorem table_localAt (h : inner.Local) (hw : w.Proper) :
    (Grammar.table inner).LocalAt w 0 fun _ => 1 :=
  (expect_localAt hw (by decide)).thenLocal hw (Nat.zero_le 1) fun _ =>
    (loop_local (fieldStep_local h) []).bind fun _ =>
      (expectClosing_local (by decide)).bind fun _ => .pure

theorem table_local (h : inner.Local) : (Grammar.table inner).Local :=
  fun _ hw => (table_localAt h hw).zero

/-! ## Calls and indexes -/

theorem arguments_localAt (h : inner.Local) (hw : w.Proper) :
    (Grammar.arguments inner).LocalAt w 0 fun _ => 1 := by
  refine .symbol hw ?_
  split
  · next hs =>
    refine .onSameLine hw fun joined => ?_
    split
    · refine .take hw (by simp [hs]) (Nat.zero_le 1) fun opening => ?_
      have hrest : ∀ values : List Expression, Parse.Local (do
          let closing ← expectClosing .rightParen .leftParen opening.span.start.line
          return Arguments.list values (Span.between opening.span closing.span)) :=
        fun values => (expectClosing_local (by decide)).bind fun _ => .pure
      refine .symbol fun s => ?_
      by_cases hs : s = .rightParen
      · rw [if_pos hs]
        exact Parse.Local.pure.bind hrest
      · rw [if_neg hs]
        exact (expressionList_local h).bind hrest
    · exact .fail
  · exact (table_localAt h hw).thenLocal hw (Nat.zero_le 1) fun _ => .pure
  · next hs => exact .take hw (by simp [hs]) (Nat.zero_le 1) fun _ => .pure
  · exact .fail

theorem arguments_local (h : inner.Local) : (Grammar.arguments inner).Local :=
  fun _ hw => (arguments_localAt h hw).zero

theorem primaryHead_localAt (h : inner.Local) (hw : w.Proper) :
    (Grammar.primaryHead inner).LocalAt w 0 fun _ => 1 := by
  refine .symbol hw ?_
  split
  · exact (expectName_localAt hw).thenLocal hw (Nat.zero_le 1) fun _ => .pure
  · next hs =>
    refine .take hw (by simp [hs]) (Nat.zero_le 1) fun _ => ?_
    exact (expression_local h).bind fun _ => (expectClosing_local (by decide)).bind fun _ => .pure
  · exact .fail

theorem suffixStep_local (h : inner.Local) : StepLocal (Grammar.suffixStep inner) := by
  intro p w hw
  have harguments : (do
      let args ← Grammar.arguments inner
      return .inl (.call (.function p args (Span.between p.span args.span))) :
      Parse (Primary ⊕ Primary)).LocalAt w 0 fun _ => 1 :=
    (arguments_localAt h hw).thenLocal hw (Nat.zero_le 1) fun _ => .pure
  refine .symbol hw ?_
  split
  · next hs =>
    refine (LocalAt.take hw (by simp [hs]) (Nat.zero_le 1) fun _ => ?_).goesOn
    exact expectName_local.bind fun _ => .pure
  · next hs =>
    refine (LocalAt.take hw (by simp [hs]) (Nat.zero_le 1) fun _ => ?_).goesOn
    exact (expression_local h).bind fun _ => (expect_local (by decide)).bind fun _ => .pure
  · next hs =>
    refine (LocalAt.take hw (by simp [hs]) (Nat.zero_le 1) fun _ => ?_).goesOn
    exact expectName_local.bind fun _ => (arguments_local h).bind fun _ => .pure
  · exact harguments.goesOn
  · exact harguments.goesOn
  · exact harguments.goesOn
  · exact .pure rfl

theorem primary_localAt (h : inner.Local) (hw : w.Proper) :
    (Grammar.primary inner).LocalAt w 0 fun _ => 1 :=
  (primaryHead_localAt h hw).thenLocal hw (Nat.zero_le 1) (loop_local (suffixStep_local h))

theorem primary_local (h : inner.Local) : (Grammar.primary inner).Local :=
  fun _ hw => (primary_localAt h hw).zero

theorem primary_localAt_name (h : inner.Local) (hw : w.Proper) (hs : w.current.symbol = .name) :
    (Grammar.primary inner).LocalAt w 1 fun _ => 1 := by
  have hhead : (Grammar.primaryHead inner).LocalAt w 1 fun _ => 1 := by
    refine .symbol hw ?_
    rw [hs]
    exact (expectName_localAt_name hw hs).thenLocal hw le_rfl fun _ => .pure
  exact hhead.thenLocal hw le_rfl (loop_local (suffixStep_local h))

/-! ## Operands -/

theorem number_local (hw : w.Proper) (hs : w.current.symbol = .number) :
    (Grammar.number : Parse _).LocalAt w 0 fun _ => 0 := by
  refine .current hw ?_
  rw [content_bind]
  split
  · exact (LocalAt.take (m := 0) hw (by simp [hs]) (Nat.zero_le 1) fun _ => .pure).zero
  · exact .fail

theorem simpleOperand_local (h : inner.Local) : (Grammar.simpleOperand inner).Local := by
  intro w hw
  refine .current hw ?_
  split
  · next op hop =>
    have hs := UnaryOperator.ne_eof_of_ofSymbol? hop
    refine (LocalAt.take (m := 0) hw hs (Nat.zero_le 1) fun _ => ?_).zero
    exact (h.operand _).bind fun _ => .pure
  · have htake : ∀ {f : Token → Parse Expression}, w.current.symbol ≠ .eof →
        (∀ t, (f t).Local) → (consume >>= f).LocalAt w 0 fun _ => 0 := fun hs hf =>
      (LocalAt.take (m := 0) hw hs (Nat.zero_le 1) hf).zero
    split
    · next hs => exact htake (by simp [hs]) fun _ => .pure
    · next hs => exact htake (by simp [hs]) fun _ => .pure
    · next hs => exact htake (by simp [hs]) fun _ => .pure
    · next hs => exact htake (by simp [hs]) fun _ => .pure
    · next hs => exact number_local hw hs
    · next hs => exact htake (by simp [hs]) fun _ => .pure
    · next hs =>
      exact htake (by simp [hs]) fun _ => (functionBody_local h _).bind fun _ => .pure
    · exact (table_local h).bind (fun _ => .pure) w hw
    · exact (primary_local h).bind (fun _ => .pure) w hw
    · exact (primary_local h).bind (fun _ => .pure) w hw
    · exact .fail

theorem operatorStep_local (h : inner.Local) (limit : Nat) :
    StepLocal (Grammar.operatorStep inner limit) := by
  intro left w hw
  refine .symbol hw ?_
  split
  · next op hop =>
    split
    · exact .pure rfl
    · have hs := BinaryOperator.ne_eof_of_ofSymbol? hop
      refine (LocalAt.take hw hs (Nat.zero_le 1) fun _ => ?_).goesOn
      exact (h.operand _).bind fun _ => .pure
  · exact .pure rfl

theorem operand_local (h : inner.Local) (limit : Nat) : (Grammar.operand inner limit).Local :=
  (simpleOperand_local h).bind (loop_local (operatorStep_local h limit))

theorem operand_localAt_name (h : inner.Local) (limit : Nat) (hw : w.Proper)
    (hs : w.current.symbol = .name) :
    (Grammar.operand inner limit).LocalAt w 1 fun _ => 1 := by
  have hsimple : (Grammar.simpleOperand inner).LocalAt w 1 fun _ => 1 := by
    refine .current hw ?_
    rw [hs]
    exact (primary_localAt_name h hw hs).thenLocal hw le_rfl fun _ => .pure
  exact hsimple.thenLocal hw le_rfl (loop_local (operatorStep_local h limit))

/-! ## Statements -/

theorem clause_local (h : inner.Local) (keyword : Span) : (Grammar.clause inner keyword).Local :=
  (expression_local h).bind fun _ => (expect_local (by decide)).bind fun _ =>
    (h.block _).bind fun _ => .pure

theorem conditional_local (h : inner.Local) (hw : w.Proper) (hs : w.current.symbol = .kwIf) :
    (Grammar.conditional inner).LocalAt w 0 fun _ => 1 := by
  refine .take hw (by simp [hs]) (Nat.zero_le 1) fun opening => ?_
  refine (clause_local h _).bind fun first => ?_
  refine (separated_local (by decide) (fun _ => clause_local h _) first).bind fun clauses => ?_
  have hrest : ∀ otherwise : Option Block, Parse.Local (do
      let closing ← expectClosing .kwEnd .kwIf opening.span.start.line
      return Statement.conditional clauses otherwise (Span.between opening.span closing.span)) :=
    fun otherwise => (expectClosing_local (by decide)).bind fun _ => .pure
  refine (accept_local (by decide)).bind fun t => ?_
  cases t with
  | some t => exact ((h.block _).map some).bind hrest
  | none => exact Parse.Local.pure.bind hrest

theorem forBody_local (h : inner.Local) (line : Nat) : (Grammar.forBody inner line).Local :=
  (expect_local (by decide)).bind fun _ => (h.block _).bind fun _ =>
    (expectClosing_local (by decide)).bind fun _ => .pure

/-! A `for` looks at what stands behind its first name before it takes the name. -/

theorem numericFor_localAt (h : inner.Local) (opening : Span) (hw : w.Proper)
    (hs : w.current.symbol = .name) :
    (Grammar.numericFor inner opening).LocalAt w 1 fun _ => 1 := by
  refine (expectName_localAt_name hw hs).thenLocal hw le_rfl fun counter => ?_
  refine (expect_local (by decide)).bind fun _ => (expression_local h).bind fun start => ?_
  refine (expect_local (by decide)).bind fun _ => (expression_local h).bind fun limit => ?_
  have hrest : ∀ step : Option Expression,
      Parse.Local (Grammar.forBody inner opening.start.line >>= fun r =>
        pure (Statement.numericFor counter start limit step r.1
          (Span.between opening r.2.span))) :=
    fun step => (forBody_local h _).bind fun _ => .pure
  refine (accept_local (by decide)).bind fun t => ?_
  cases t with
  | some t => exact ((expression_local h).map some).bind hrest
  | none => exact Parse.Local.pure.bind hrest

theorem genericFor_localAt (h : inner.Local) (opening : Span) (hw : w.Proper)
    (hs : w.current.symbol = .name) :
    (Grammar.genericFor inner opening).LocalAt w 1 fun _ => 1 := by
  have hnames : (commaList expectName : Parse _).LocalAt w 1 fun _ => 1 :=
    (expectName_localAt_name hw hs).thenLocal hw le_rfl
      (separated_local (by decide) fun _ => expectName_local)
  exact hnames.thenLocal hw le_rfl fun _ => (expect_local (by decide)).bind fun _ =>
    (expressionList_local h).bind fun _ => (forBody_local h _).bind fun _ => .pure

theorem forLoop_local (h : inner.Local) (hw : w.Proper) (hs : w.current.symbol = .kwFor) :
    (Grammar.forLoop inner).LocalAt w 0 fun _ => 1 := by
  refine .take hw (by simp [hs]) (Nat.zero_le 1) fun opening => ?_
  intro w hw
  refine .symbol hw ?_
  split
  · next hs =>
    refine (LocalAt.followingSymbol (n := fun _ => 1) hw (fun _ => le_rfl) ?_).zero
    split
    · exact numericFor_localAt h _ hw hs
    · exact genericFor_localAt h _ hw hs
    · exact genericFor_localAt h _ hw hs
    · exact .take hw (by simp [hs]) le_rfl fun _ => .fail
  · exact .fail

theorem functionName_local : (Grammar.functionName : Parse _).Local := by
  refine expectName_local.bind fun first => ?_
  refine (separated_local (by decide) (fun _ => expectName_local) first).bind fun path => ?_
  refine (accept_local (by decide)).bind fun t => ?_
  cases t with
  | some t => exact expectName_local.bind fun _ => .pure
  | none => exact .pure

theorem localAssign_local (h : inner.Local) (opening : Span) :
    (Grammar.localAssign inner opening).Local := by
  refine (commaList_local expectName_local).bind fun names => ?_
  refine (accept_local (by decide)).bind fun t => ?_
  cases t with
  | some t => exact (expressionList_local h).bind fun _ => .pure
  | none => exact Parse.Local.pure.bind fun _ => .pure

theorem localStatement_local (h : inner.Local) (hw : w.Proper) (hs : w.current.symbol = .kwLocal) :
    (Grammar.localStatement inner).LocalAt w 0 fun _ => 1 := by
  refine .take hw (by simp [hs]) (Nat.zero_le 1) fun opening => ?_
  refine (accept_local (by decide)).bind fun t => ?_
  cases t with
  | some t => exact expectName_local.bind fun _ => (functionBody_local h _).bind fun _ => .pure
  | none => exact localAssign_local h _

theorem returnStatement_local (h : inner.Local) (hw : w.Proper)
    (hs : w.current.symbol = .kwReturn) :
    (Grammar.returnStatement inner).LocalAt w 0 fun _ => 1 := by
  refine .take hw (by simp [hs]) (Nat.zero_le 1) fun keyword => ?_
  refine .symbol fun s => ?_
  by_cases hs : s ∈ Grammar.endsValues
  · rw [if_pos hs]
    exact Parse.Local.pure.bind fun _ => (accept_local (by decide)).bind fun _ => .pure
  · rw [if_neg hs]
    exact (expressionList_local h).bind fun _ => (accept_local (by decide)).bind fun _ => .pure

theorem target_local (p : Primary) : (Grammar.target p : Parse _).Local := by
  unfold Grammar.target
  split
  · exact .pure
  · exact .fail

theorem assign_local (h : inner.Local) (first : Variable) : (Grammar.assign inner first).Local := by
  have hnext : (Grammar.nextTarget inner).Local := (primary_local h).bind target_local
  exact (separated_local (by decide) (fun _ => hnext) first).bind fun _ =>
    (expect_local (by decide)).bind fun _ => (expressionList_local h).bind fun _ => .pure

theorem assignOrCall_localAt (h : inner.Local) (hw : w.Proper) :
    (Grammar.assignOrCall inner).LocalAt w 0 fun _ => 1 := by
  refine (primary_localAt h hw).thenLocal hw (Nat.zero_le 1) fun p => ?_
  refine .symbol fun s => ?_
  split
  · exact (target_local p).bind (assign_local h)
  · exact (target_local p).bind (assign_local h)
  · split
    · exact .pure
    · exact .fail
    · exact .fail

theorem statement_localAt (h : inner.Local) (hw : w.Proper) :
    (Grammar.statement inner).LocalAt w 0 fun _ => 1 := by
  refine .symbol hw ?_
  split
  · next hs => exact conditional_local h hw hs
  · next hs =>
    exact .take hw (by simp [hs]) (Nat.zero_le 1) fun _ => (expression_local h).bind fun _ =>
      (expect_local (by decide)).bind fun _ => (h.block _).bind fun _ =>
        (expectClosing_local (by decide)).bind fun _ => .pure
  · next hs =>
    exact .take hw (by simp [hs]) (Nat.zero_le 1) fun _ => (h.block _).bind fun _ =>
      (expectClosing_local (by decide)).bind fun _ => .pure
  · next hs => exact forLoop_local h hw hs
  · next hs =>
    exact .take hw (by simp [hs]) (Nat.zero_le 1) fun _ => (h.block _).bind fun _ =>
      (expectClosing_local (by decide)).bind fun _ => (expression_local h).bind fun _ => .pure
  · next hs =>
    exact .take hw (by simp [hs]) (Nat.zero_le 1) fun _ => functionName_local.bind fun _ =>
      (functionBody_local h _).bind fun _ => .pure
  · next hs => exact localStatement_local h hw hs
  · next hs =>
    exact .take hw (by simp [hs]) (Nat.zero_le 1) fun _ => expectName_local.bind fun _ =>
      (expect_local (by decide)).bind fun _ => .pure
  · next hs =>
    exact .take hw (by simp [hs]) (Nat.zero_le 1) fun _ => expectName_local.bind fun _ => .pure
  · exact assignOrCall_localAt h hw

theorem statementStep_local (h : inner.Local) (terminators : List Symbol) :
    StepLocal (Grammar.statementStep inner terminators) := by
  intro statements w hw
  refine .symbol hw ?_
  split
  · exact .pure rfl
  · split
    · next hs => exact (LocalAt.take hw (by simp [hs]) (Nat.zero_le 1) fun _ => .pure).goesOn
    · next hs =>
      refine LocalAt.goesOn ?_
      exact (returnStatement_local h hw hs).thenLocal hw (Nat.zero_le 1) fun _ => .pure
    · next hs =>
      refine LocalAt.goesOn ?_
      have hbreak : (Grammar.breakStatement : Parse _).LocalAt w 0 fun _ => 1 :=
        .take hw (by simp [hs]) (Nat.zero_le 1) fun _ => (accept_local (by decide)).bind
          fun _ => .pure
      exact hbreak.thenLocal hw (Nat.zero_le 1) fun _ => .pure
    · refine LocalAt.goesOn ?_
      exact (statement_localAt h hw).thenLocal hw (Nat.zero_le 1) fun _ => .pure

theorem block_local (h : inner.Local) (terminators : List Symbol) :
    (Grammar.block inner terminators).Local :=
  .current fun _ => (loop_local (statementStep_local h terminators) []).bind fun _ => .pure

/-! ## Levels -/

theorem local_ofDepth (depth : Nat) : (Level.ofDepth depth).Local := by
  induction depth with
  | zero =>
    exact ⟨fun _ => .fail, fun _ => .fail, fun _ _ _ _ => .ungrammatical fun _ => rfl⟩
  | succ depth ih =>
    exact ⟨block_local ih, operand_local ih,
      fun limit _ hw hs => operand_localAt_name ih limit hw hs⟩

theorem chunk_local (depth : Nat) : (Grammar.chunk (Level.ofDepth depth)).Local := by
  refine ((local_ofDepth depth).block _).bind fun b => .symbol fun s => ?_
  split
  · exact .pure
  · exact .fail

end Local

end LuaSource
