-- SUMMARY: Every production of the grammar runs in step.
import LuaSource.Proofs.Grammar.InStep

/-!
# The grammar in step

Each production runs in step if the level inside it does. The spans that it computes differ in the
two runs, and play no part in what it does next. The lines that it remembers for its messages stand
for each other.
-/

namespace LuaSource

/-- A level whose blocks and operands run in step. -/
structure Parallel.Level (L : Parallel) (inner : Level) : Prop where
  block : ∀ n terminators,
    L.InStep n n Shape.block (inner.block terminators) (inner.block terminators)
  operand : ∀ n limit,
    L.InStep n n Shape.expression (inner.operand limit) (inner.operand limit)

namespace Parallel

open Parse Parsing

variable {L : Parallel} {inner : LuaSource.Level} {n : Nat}

theorem expression_inStep (h : L.Level inner) :
    L.InStep n n Shape.expression (Grammar.expression inner) (Grammar.expression inner) :=
  h.operand n 0

theorem expressionList_inStep (h : L.Level inner) :
    L.InStep n n (List.map Shape.expression) (Grammar.expressionList inner)
      (Grammar.expressionList inner) := .commaList (expression_inStep h)

/-! ## Functions -/

theorem parameterStep_inStep {names names' : List Name}
    (h : names.map Shape.name = names'.map Shape.name) :
    L.InStep n n (Sum.map (List.map Shape.name) (Prod.map (List.map Shape.name) id))
      (Grammar.parameterStep names) (Grammar.parameterStep names') := by
  refine .acceptThen (fun _ _ _ => .pure ?_) (.name fun a b hab => .acceptThen
    (fun _ _ _ => .pure ?_) (.pure ?_))
  · simp only [Sum.map_inr, Prod.map_apply, List.map_reverse, h]
  · simp only [Sum.map_inl, List.map_cons, hab, h]
  · simp only [Sum.map_inr, Prod.map_apply, List.map_reverse, List.map_cons, hab, h]

theorem functionBody_inStep (h : L.Level inner) {line line' : Nat} (hline : L.Lines line line') :
    L.InStep n n Shape.functionBody (Grammar.functionBody inner line)
      (Grammar.functionBody inner line') := by
  refine .expectThen fun _ _ _ => .symbol fun s => ?_
  refine .ite_bind (s := Prod.map (List.map Shape.name) id) (.pure rfl)
    (.loop (fun _ _ => parameterStep_inStep) rfl) fun r r' hr => .expectThen fun _ _ _ => ?_
  refine (h.block n _).bind fun b b' hb => .closing hline fun _ _ => .pure ?_
  obtain ⟨hnames, hvarargs⟩ := Prod.mk.inj hr
  simp only [id] at hvarargs
  simp only [Shape.functionBody, hnames, hvarargs, hb]

/-! ## Tables -/

theorem field_inStep (h : L.Level inner) :
    L.InStep n n Shape.field (Grammar.field inner) (Grammar.field inner) := by
  have hpositional : L.InStep n n Shape.field
      (do return .positional (← Grammar.expression inner))
      (do return .positional (← Grammar.expression inner)) :=
    (expression_inStep h).bind fun e e' he => .pure (by simp only [Shape.field, he])
  refine .symbol fun s => ?_
  split
  · refine .take fun _ _ _ => (expression_inStep h).bind fun key key' hkey => ?_
    refine .expectThen fun _ _ _ => .expectThen fun _ _ _ => ?_
    exact (expression_inStep h).bind fun value value' hvalue =>
      .pure (by simp only [Shape.field, hkey, hvalue])
  · refine .followingSymbol fun s => .ite (.name fun name name' hname => ?_) hpositional
    exact .take fun _ _ _ => (expression_inStep h).bind fun value value' hvalue =>
      .pure (by simp only [Shape.field, hname, hvalue])
  · exact hpositional

theorem acceptSeparator_inStep :
    L.InStep n n id Grammar.acceptSeparator Grammar.acceptSeparator :=
  .acceptThen (fun _ _ _ => .pure rfl) (.acceptThen (fun _ _ _ => .pure rfl) (.pure rfl))

theorem fieldStep_inStep (h : L.Level inner) {fields fields' : List Field}
    (hfields : fields.map Shape.field = fields'.map Shape.field) :
    L.InStep n n (Sum.map (List.map Shape.field) (List.map Shape.field))
      (Grammar.fieldStep inner fields) (Grammar.fieldStep inner fields') := by
  refine .symbol fun s => .ite (.pure ?_) ((field_inStep h).bind fun f f' hf => ?_)
  · simp only [Sum.map_inr, List.map_reverse, hfields]
  · refine acceptSeparator_inStep.bind fun more more' hmore => ?_
    cases hmore
    refine .ite (.pure ?_) (.pure ?_)
    · simp only [Sum.map_inl, List.map_cons, hf, hfields]
    · simp only [Sum.map_inr, List.map_reverse, List.map_cons, hf, hfields]

theorem table_inStep (h : L.Level inner) :
    L.InStep n n Shape.table (Grammar.table inner) (Grammar.table inner) := by
  refine .expectThen fun _ _ hopening => ?_
  refine InStep.bind (.loop (fun _ _ => fieldStep_inStep h) rfl) fun fs fs' hfs => ?_
  exact .closing hopening.line fun _ _ =>
    .pure (by simp only [Shape.table, Shape.fields_eq_map, hfs])

/-! ## Calls and indexes -/

/-- Where only one of two opening parentheses is on the line of the token before it, the other run
ends. -/
theorem arguments_inStep (h : L.Level inner) :
    L.InStep (n + 1) (n + 1) Shape.arguments (Grammar.arguments inner)
      (Grammar.arguments inner) := by
  have hlist : L.InStep (n + 1) (n + 1) Shape.arguments (do
      let opening ← consume
      let values ←
        if (← symbol) = .rightParen then pure [] else Grammar.expressionList inner
      let closing ← expectClosing .rightParen .leftParen opening.span.start.line
      return .list values (Span.between opening.span closing.span)) (do
      let opening ← consume
      let values ←
        if (← symbol) = .rightParen then pure [] else Grammar.expressionList inner
      let closing ← expectClosing .rightParen .leftParen opening.span.start.line
      return .list values (Span.between opening.span closing.span)) := by
    refine .take fun _ _ hopening => .symbol fun s => ?_
    refine .ite_bind (.pure rfl) (expressionList_inStep h) fun es es' hes => ?_
    exact .closing hopening.line fun _ _ => .pure (by
      simp only [Shape.arguments, Shape.expressions_eq_map, hes])
  have hmissing : L.InStep (n + 1) (n + 1) Shape.arguments (fail .missingArguments)
      (fail .missingArguments) := .fail fun _ => rfl
  intro w v hwv
  refine InStep.symbol_at hwv ?_
  split
  · next hs => exact InStep.onSameLine_at hwv hs hlist
  · exact (table_inStep h).bind (fun t t' ht => .pure (by simp only [Shape.arguments, ht])) w v hwv
  · exact InStep.take (fun a b hab => .pure (by
      simp only [Shape.arguments, hab.content])) w v hwv
  · exact hmissing w v hwv

theorem primaryHead_inStep (h : L.Level inner) :
    L.InStep n (n + 1) Shape.primary (Grammar.primaryHead inner) (Grammar.primaryHead inner) := by
  refine .symbol fun s => ?_
  split
  · exact InStep.expectName.bind fun name name' hname => .pure (by
      simp only [Shape.primary, Shape.target, hname])
  · exact .takeOn fun _ _ hopening => (expression_inStep h).bind fun e e' he =>
      .closing hopening.line fun _ _ => .pure (by simp only [Shape.primary, he])
  · exact .fail fun _ => rfl

theorem suffixStep_inStep (h : L.Level inner) {p p' : Primary}
    (hp : Shape.primary p = Shape.primary p') :
    L.InStep (n + 1) (n + 1) (Sum.map Shape.primary Shape.primary) (Grammar.suffixStep inner p)
      (Grammar.suffixStep inner p') := by
  have hcall : L.InStep (n + 1) (n + 1) (Sum.map Shape.primary Shape.primary)
      (do
        let args ← Grammar.arguments inner
        return .inl (.call (.function p args (Span.between p.span args.span))))
      (do
        let args ← Grammar.arguments inner
        return .inl (.call (.function p' args (Span.between p'.span args.span)))) :=
    (arguments_inStep h).bind fun args args' hargs => .pure (by
      simp only [Sum.map_inl, Shape.primary, Shape.call, hp, hargs])
  refine .symbol fun s => ?_
  split
  · exact .take fun _ _ _ => .name fun name name' hname => .pure (by
      simp only [Sum.map_inl, Shape.primary, Shape.target, hp, hname])
  · exact .take fun _ _ _ => (expression_inStep h).bind fun key key' hkey =>
      .expectThen fun _ _ _ => .pure (by
        simp only [Sum.map_inl, Shape.primary, Shape.target, hp, hkey])
  · exact .take fun _ _ _ => .name fun name name' hname =>
      (arguments_inStep h).bind fun args args' hargs => .pure (by
        simp only [Sum.map_inl, Shape.primary, Shape.call, hp, hname, hargs])
  · exact hcall
  · exact hcall
  · exact hcall
  · exact .pure (congrArg Sum.inr hp)

theorem primary_inStep (h : L.Level inner) :
    L.InStep n n Shape.primary (Grammar.primary inner) (Grammar.primary inner) :=
  (primaryHead_inStep h).bind fun _ _ hp =>
    (InStep.loop (fun _ _ => suffixStep_inStep h) hp).mono (Nat.le_succ n)

/-! ## Operands -/

theorem number_inStep : L.InStep n n Shape.expression Grammar.number Grammar.number := by
  refine .current fun a b hab => ?_
  rw [content_bind, content_bind, hab.content]
  split
  · exact .take fun _ _ _ => .pure (by simp only [Shape.expression])
  · exact .fail fun _ => rfl

theorem simpleOperand_inStep (h : L.Level inner) :
    L.InStep n n Shape.expression (Grammar.simpleOperand inner) (Grammar.simpleOperand inner) := by
  refine .current fun a b hab => ?_
  rw [hab.symbol]
  split
  · exact .take fun _ _ _ => (h.operand n _).bind fun e e' he => .pure (by
      simp only [Shape.expression, he])
  · split
    · exact .take fun _ _ _ => .pure (by simp only [Shape.expression])
    · exact .take fun _ _ _ => .pure (by simp only [Shape.expression])
    · exact .take fun _ _ _ => .pure (by simp only [Shape.expression])
    · exact .take fun _ _ _ => .pure (by simp only [Shape.expression])
    · exact number_inStep
    · exact .take fun _ _ _ => .pure (by simp only [Shape.expression, hab.content])
    · exact .take fun _ _ _ => (functionBody_inStep h hab.line).bind fun f f' hf => .pure (by
        simp only [Shape.expression, hf])
    · exact (table_inStep h).bind fun t t' ht => .pure (by simp only [Shape.expression, ht])
    · exact (primary_inStep h).bind fun p p' hp => .pure (by simp only [Shape.expression, hp])
    · exact (primary_inStep h).bind fun p p' hp => .pure (by simp only [Shape.expression, hp])
    · exact .fail fun _ => rfl

theorem operatorStep_inStep (h : L.Level inner) (limit : Nat) {left left' : Expression}
    (hleft : Shape.expression left = Shape.expression left') :
    L.InStep n n (Sum.map Shape.expression Shape.expression)
      (Grammar.operatorStep inner limit left) (Grammar.operatorStep inner limit left') := by
  refine .symbol fun s => ?_
  split
  · refine .ite (.pure (congrArg Sum.inr hleft)) (.take fun _ _ _ => ?_)
    exact (h.operand n _).bind fun right right' hright => .pure (by
      simp only [Sum.map_inl, Shape.expression, hleft, hright])
  · exact .pure (congrArg Sum.inr hleft)

theorem operand_inStep (h : L.Level inner) (limit : Nat) :
    L.InStep n n Shape.expression (Grammar.operand inner limit) (Grammar.operand inner limit) :=
  (simpleOperand_inStep h).bind fun _ _ he => .loop (fun _ _ => operatorStep_inStep h limit) he

/-! ## Statements -/

theorem clause_inStep (h : L.Level inner) (keyword keyword' : Span) :
    L.InStep n n Shape.clause (Grammar.clause inner keyword) (Grammar.clause inner keyword') :=
  (expression_inStep h).bind fun e e' he => .expectThen fun _ _ _ =>
    (h.block n _).bind fun b b' hb => .pure (by simp only [Shape.clause, he, hb])

theorem conditional_inStep (h : L.Level inner) :
    L.InStep n n Shape.statement (Grammar.conditional inner) (Grammar.conditional inner) := by
  refine .take fun opening opening' hopening => ?_
  refine (clause_inStep h _ _).bind fun first first' hfirst => ?_
  refine InStep.bind (.separated (fun _ _ _ => clause_inStep h _ _) hfirst) fun cs cs' hcs => ?_
  have hrest : ∀ {o o' : Option Block},
      o.map Shape.block = o'.map Shape.block → L.InStep n n Shape.statement (do
        let closing ← expectClosing .kwEnd .kwIf opening.span.start.line
        return .conditional cs o (Span.between opening.span closing.span)) (do
        let closing ← expectClosing .kwEnd .kwIf opening'.span.start.line
        return .conditional cs' o' (Span.between opening'.span closing.span)) := fun ho =>
    .closing hopening.line fun _ _ => .pure (by
      simp only [Shape.statement, Shape.clauses_eq_map, Shape.otherwise_eq_map, hcs, ho])
  refine .acceptThen (fun _ _ _ => ?_) (hrest rfl)
  exact InStep.bind (s := Option.map Shape.block)
    (.map (h.block n _) fun _ _ hb => congrArg some hb) fun _ _ ho => hrest ho

theorem forBody_inStep (h : L.Level inner) {line line' : Nat} (hline : L.Lines line line') :
    L.InStep n n (fun r => Shape.block r.1) (Grammar.forBody inner line)
      (Grammar.forBody inner line') :=
  .expectThen fun _ _ _ => (h.block n _).bind fun _ _ hb => .closing hline fun _ _ => .pure hb

/-- With a step or without, a `for` goes on in the same way. -/
theorem numericFor_inStep (h : L.Level inner) {opening opening' : Span}
    (hline : L.Lines opening.start.line opening'.start.line) :
    L.InStep n n Shape.statement (Grammar.numericFor inner opening)
      (Grammar.numericFor inner opening') := by
  refine .name fun name name' hname => .expectThen fun _ _ _ => ?_
  refine (expression_inStep h).bind fun start start' hstart => .expectThen fun _ _ _ => ?_
  refine (expression_inStep h).bind fun limit limit' hlimit => ?_
  have hrest : ∀ {o o' : Option Expression},
      o.map Shape.expression = o'.map Shape.expression → L.InStep n n Shape.statement
        (Grammar.forBody inner opening.start.line >>= fun r =>
          pure (.numericFor name start limit o r.1 (Span.between opening r.2.span)))
        (Grammar.forBody inner opening'.start.line >>= fun r =>
          pure (.numericFor name' start' limit' o' r.1 (Span.between opening' r.2.span))) :=
    fun ho => (forBody_inStep h hline).bind fun r r' hr => .pure (by
      simp only [Shape.statement, Shape.step_eq_map, hname, hstart, hlimit, ho, hr])
  refine .acceptThen (fun _ _ _ => ?_) (hrest rfl)
  exact InStep.bind (s := Option.map Shape.expression)
    (.map (expression_inStep h) fun _ _ he => congrArg some he) fun _ _ ho => hrest ho

theorem genericFor_inStep (h : L.Level inner) {opening opening' : Span}
    (hline : L.Lines opening.start.line opening'.start.line) :
    L.InStep n n Shape.statement (Grammar.genericFor inner opening)
      (Grammar.genericFor inner opening') := by
  refine InStep.bind (.commaList (InStep.expectName.mono (Nat.le_succ n))) fun ns ns' hns => ?_
  refine .expectThen fun _ _ _ => (expressionList_inStep h).bind fun es es' hes => ?_
  exact (forBody_inStep h hline).bind fun r r' hr => .pure (by
    simp only [Shape.statement, Shape.expressions_eq_map, hns, hes, hr])

theorem forLoop_inStep (h : L.Level inner) :
    L.InStep n n Shape.statement (Grammar.forLoop inner) (Grammar.forLoop inner) := by
  refine .take fun _ _ hopening => .symbol fun s => ?_
  refine .ite (.followingSymbol fun s => ?_) (.fail fun _ => rfl)
  split
  · exact numericFor_inStep h hopening.line
  · exact genericFor_inStep h hopening.line
  · exact genericFor_inStep h hopening.line
  · exact .take fun _ _ _ => .fail fun _ => rfl

theorem functionName_inStep :
    L.InStep n n Shape.functionName Grammar.functionName Grammar.functionName := by
  refine .name fun first first' hfirst => ?_
  refine InStep.bind (.separated (fun _ _ _ => InStep.expectName.mono (Nat.le_succ n)) hfirst)
    fun path path' hpath => .acceptThen (fun _ _ _ => .name fun method method' hmethod => ?_) ?_
  · exact .pure (by simp only [Shape.functionName, List.map_append, List.map_cons, List.map_nil,
      hpath, hmethod])
  · exact .pure (by simp only [Shape.functionName, hpath])

theorem functionStatement_inStep (h : L.Level inner) :
    L.InStep n n Shape.statement (Grammar.functionStatement inner)
      (Grammar.functionStatement inner) :=
  .take fun _ _ hopening => functionName_inStep.bind fun name name' hname =>
    (functionBody_inStep h hopening.line).bind fun f f' hf => .pure (by
      simp only [Shape.statement, hname, hf])

theorem localAssign_inStep (h : L.Level inner) (opening opening' : Span) :
    L.InStep n n Shape.statement (Grammar.localAssign inner opening)
      (Grammar.localAssign inner opening') := by
  refine InStep.bind (.commaList (InStep.expectName.mono (Nat.le_succ n))) fun ns ns' hns => ?_
  refine .acceptThen (fun _ _ _ => (expressionList_inStep h).bind fun es es' hes => .pure ?_)
    (.pure ?_)
  · simp only [Shape.statement, Shape.expressions_eq_map, hns, hes]
  · simp only [Shape.statement, hns]

theorem localStatement_inStep (h : L.Level inner) :
    L.InStep n n Shape.statement (Grammar.localStatement inner) (Grammar.localStatement inner) := by
  refine .take fun _ _ _ => .acceptThen (fun _ _ hkeyword => .name fun name name' hname => ?_)
    (localAssign_inStep h _ _)
  exact (functionBody_inStep h hkeyword.line).bind fun f f' hf => .pure (by
    simp only [Shape.statement, hname, hf])

theorem labelStatement_inStep :
    L.InStep n n Shape.statement Grammar.labelStatement Grammar.labelStatement :=
  .take fun _ _ _ => .name fun name name' hname => .expectThen fun _ _ _ => .pure (by
    simp only [Shape.statement, hname])

theorem jumpStatement_inStep :
    L.InStep n n Shape.statement Grammar.jumpStatement Grammar.jumpStatement :=
  .take fun _ _ _ => .name fun name name' hname => .pure (by simp only [Shape.statement, hname])

theorem returnStatement_inStep (h : L.Level inner) :
    L.InStep n n Shape.statement (Grammar.returnStatement inner)
      (Grammar.returnStatement inner) := by
  refine .take fun _ _ _ => .symbol fun s => ?_
  refine .ite_bind (.pure rfl) (expressionList_inStep h) fun es es' hes => ?_
  exact .acceptThen (fun _ _ _ => .pure (by
    simp only [Shape.statement, Shape.expressions_eq_map, hes])) (.pure (by
    simp only [Shape.statement, Shape.expressions_eq_map, hes]))

theorem breakStatement_inStep :
    L.InStep n n Shape.statement Grammar.breakStatement Grammar.breakStatement :=
  .take fun _ _ _ => .acceptThen (fun _ _ _ => .pure (by simp only [Shape.statement]))
    (.pure (by simp only [Shape.statement]))

theorem target_inStep {p p' : Primary} (h : Shape.primary p = Shape.primary p') :
    L.InStep n n Shape.target (Grammar.target p) (Grammar.target p') := by
  cases p <;> cases p' <;> simp only [Shape.primary, reduceCtorEq, Primary.var.injEq] at h
  · exact .pure h
  · exact .fail fun _ => rfl
  · exact .fail fun _ => rfl

theorem assign_inStep (h : L.Level inner) {first first' : Variable}
    (hfirst : Shape.target first = Shape.target first') :
    L.InStep n n Shape.statement (Grammar.assign inner first) (Grammar.assign inner first') := by
  have hnext : L.InStep n n Shape.target (Grammar.nextTarget inner) (Grammar.nextTarget inner) :=
    (primary_inStep h).bind fun _ _ hp => target_inStep hp
  refine InStep.bind (.separated (fun _ _ _ => hnext) hfirst) fun vs vs' hvs => ?_
  refine .expectThen fun _ _ _ => (expressionList_inStep h).bind fun es es' hes => .pure ?_
  simp only [Shape.statement, Shape.targets_eq_map, Shape.expressions_eq_map, hvs, hes]

theorem assignOrCall_inStep (h : L.Level inner) :
    L.InStep n n Shape.statement (Grammar.assignOrCall inner) (Grammar.assignOrCall inner) := by
  refine (primary_inStep h).bind fun p p' hp => .symbol fun s => ?_
  split
  · exact (target_inStep hp).bind fun _ _ hv => assign_inStep h hv
  · exact (target_inStep hp).bind fun _ _ hv => assign_inStep h hv
  · cases p <;> cases p' <;> simp only [Shape.primary, reduceCtorEq, Primary.call.injEq] at hp
    · exact .fail fun _ => rfl
    · exact .pure (by simp only [Shape.statement, hp])
    · exact .fail fun _ => rfl

/-! ## Blocks -/

theorem statement_inStep (h : L.Level inner) :
    L.InStep n n Shape.statement (Grammar.statement inner) (Grammar.statement inner) := by
  refine .symbol fun s => ?_
  split
  · exact conditional_inStep h
  · exact .take fun _ _ hopening => (expression_inStep h).bind fun e e' he =>
      .expectThen fun _ _ _ => (h.block n _).bind fun b b' hb =>
        .closing hopening.line fun _ _ => .pure (by simp only [Shape.statement, he, hb])
  · exact .take fun _ _ hopening => (h.block n _).bind fun b b' hb =>
      .closing hopening.line fun _ _ => .pure (by simp only [Shape.statement, hb])
  · exact forLoop_inStep h
  · exact .take fun _ _ hopening => (h.block n _).bind fun b b' hb =>
      .closing hopening.line fun _ _ => (expression_inStep h).bind fun e e' he =>
        .pure (by simp only [Shape.statement, he, hb])
  · exact functionStatement_inStep h
  · exact localStatement_inStep h
  · exact labelStatement_inStep
  · exact jumpStatement_inStep
  · exact assignOrCall_inStep h

theorem statementStep_inStep (h : L.Level inner) (terminators : List Symbol)
    {ss ss' : List Statement} (hss : ss.map Shape.statement = ss'.map Shape.statement) :
    L.InStep n n (Sum.map (List.map Shape.statement) (List.map Shape.statement))
      (Grammar.statementStep inner terminators ss)
      (Grammar.statementStep inner terminators ss') := by
  have hdone : ∀ {s s' : Statement}, Shape.statement s = Shape.statement s' →
      (s :: ss).reverse.map Shape.statement = (s' :: ss').reverse.map Shape.statement := by
    intro s s' hs
    simp only [List.map_reverse, List.map_cons, hs, hss]
  refine .symbol fun s => .ite (.pure ?_) ?_
  · simp only [Sum.map_inr, List.map_reverse, hss]
  · split
    · exact .take fun _ _ _ => .pure (congrArg Sum.inl hss)
    · exact (returnStatement_inStep h).bind fun _ _ hs => .pure (congrArg Sum.inr (hdone hs))
    · exact breakStatement_inStep.bind fun _ _ hs => .pure (congrArg Sum.inr (hdone hs))
    · exact (statement_inStep h).bind fun s s' hs => .pure (by
        simp only [Sum.map_inl, List.map_cons, hs, hss])

theorem block_inStep (h : L.Level inner) (terminators : List Symbol) :
    L.InStep n n Shape.block (Grammar.block inner terminators)
      (Grammar.block inner terminators) := by
  refine .current fun _ _ _ => ?_
  refine InStep.bind (.loop (fun _ _ => statementStep_inStep h terminators) rfl)
    fun ss ss' hss => ?_
  exact .pure (by simp only [Shape.block, Shape.statements_eq_map, hss])

/-! ## Levels -/

theorem level_ofDepth (L : Parallel) (depth : Nat) : L.Level (Level.ofDepth depth) := by
  induction depth with
  | zero => exact ⟨fun _ _ => .fail fun _ => rfl, fun _ _ => .fail fun _ => rfl⟩
  | succ depth ih => exact ⟨fun _ => block_inStep ih, fun _ => operand_inStep ih⟩

theorem chunk_inStep (L : Parallel) (depth : Nat) :
    L.InStep n n Shape.block (Grammar.chunk (Level.ofDepth depth))
      (Grammar.chunk (Level.ofDepth depth)) :=
  ((L.level_ofDepth depth).block n _).bind fun _ _ hb =>
    .symbol fun _ => .ite (.pure hb) (.fail fun _ => rfl)

end Parallel

end LuaSource
