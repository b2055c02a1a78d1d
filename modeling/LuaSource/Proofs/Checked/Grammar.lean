-- SUMMARY: Each checked production does what the production of the grammar does.
import LuaSource.Proofs.Checked.Parse

/-!
# Checked productions

The productions are compared one by one, along the rules for what they are put together from. A
check passes because of the symbol of the token that has been taken, or because a list has a first
item that was parsed before the others.
-/

namespace LuaSource.Checked

open LuaSource.Checked.Parse LuaSource.Grammar LuaSource.Parse Parsing

variable {d : Nat} {inner : Level} {inner' : LuaSource.Level}

/-- Every block and operand of the levels agrees. -/
structure Level.Agrees (d : Nat) (inner : Level) (inner' : LuaSource.Level) : Prop where
  block : ∀ terminators, Parse.Agrees d (inner.block terminators) (inner'.block terminators)
  operand : ∀ limit, Parse.Agrees d (inner.operand limit) (inner'.operand limit)

namespace Grammar

/-! ## Expressions -/

theorem expression_agrees (h : inner.Agrees d inner') :
    Agrees d (expression inner) (expression inner') := h.operand 0

theorem expressionList_agrees (h : inner.Agrees d inner') :
    Agrees d (expressionList inner) (expressionList inner') :=
  .commaList (expression_agrees h)

theorem parameterStep_agrees (names : List Name) :
    Agrees d (parameterStep names) (parameterStep names) := by
  refine .bind (.accept _) fun t => ?_
  cases t with
  | some t => exact .pure _
  | none =>
    refine .bind .expectName fun _ => .bind (.accept _) fun t => ?_
    cases t <;> exact .pure _

theorem functionBody_agrees (h : inner.Agrees d inner') (line : Nat) :
    Agrees d (functionBody inner line) (functionBody inner' line) :=
  .bind (.expect _) fun _ => .bind .symbol fun _ =>
    .ite_bind (.pure _) (.loop parameterStep_agrees []) fun ⟨_, _⟩ =>
      .bind (.expect _) fun _ => (h.block _).bind fun _ => .bind (.expectClosing _ _ _) fun _ =>
        .pure _

theorem field_agrees (h : inner.Agrees d inner') : Agrees d (field inner) (field inner') := by
  have hpositional : Agrees d (do return .positional (← expression inner) : Parse Field)
      (do return .positional (← expression inner')) :=
    (expression_agrees h).bind fun _ => .pure _
  refine .bind .symbol fun s => ?_
  cases s with
  | leftBracket =>
    exact .bind .consume fun _ => (expression_agrees h).bind fun _ => .bind (.expect _) fun _ =>
      .bind (.expect _) fun _ => (expression_agrees h).bind fun _ => .pure _
  | name =>
    refine .bind .followingSymbol fun s => .ite ?_ hpositional
    exact .bind .expectName fun _ => .bind .consume fun _ => (expression_agrees h).bind fun _ =>
      .pure _
  | _ => exact hpositional

theorem acceptSeparator_agrees : Agrees d acceptSeparator acceptSeparator := by
  refine .bind (.accept _) fun t => ?_
  cases t with
  | some t => exact .pure _
  | none => exact .bind (.accept _) fun _ => .pure _

theorem table_agrees (h : inner.Agrees d inner') : Agrees d (table inner) (table inner') := by
  refine .bind (.expect _) fun _ => .bind (.loop (fun fields => ?_) _) fun _ =>
    .bind (.expectClosing _ _ _) fun _ => .pure _
  exact .bind .symbol fun _ => .ite (.pure _) ((field_agrees h).bind fun _ =>
    acceptSeparator_agrees.bind fun _ => .ite (.pure _) (.pure _))

theorem arguments_agrees (h : inner.Agrees d inner') :
    Agrees d (arguments inner) (arguments inner') := by
  refine fun w hw => .symbol ?_
  generalize hs : w.current.symbol = s
  cases s with
  | leftParen =>
    refine Agrees.bind .onSameLine (fun joined => .ite (.bind .consume fun _ => ?_) (.fail _)) w hw
    exact .bind .symbol fun _ => .ite_bind (.pure _) (expressionList_agrees h) fun _ =>
      .bind (.expectClosing _ _ _) fun _ => .pure _
  | leftBrace => exact (table_agrees h).bind (fun _ => .pure _) w hw
  | string =>
    refine (Agrees.consume w hw).bind fun t w' ht hw' => ?_
    obtain ⟨rfl, -⟩ := hw.consume ht
    exact (Agrees.content hw.current (by rw [hs]; rfl)).bind (fun _ => .pure _) w' hw'
  | _ => exact Agrees.fail _ w hw

theorem primaryHead_agrees (h : inner.Agrees d inner') :
    Agrees d (primaryHead inner) (primaryHead inner') := by
  refine .bind .symbol fun s => ?_
  cases s with
  | name => exact .bind .expectName fun _ => .pure _
  | leftParen =>
    exact .bind .consume fun _ => (expression_agrees h).bind fun _ =>
      .bind (.expectClosing _ _ _) fun _ => .pure _
  | _ => exact .fail _

theorem suffixStep_agrees (h : inner.Agrees d inner') (p : Primary) :
    Agrees d (suffixStep inner p) (suffixStep inner' p) := by
  have hcall : Agrees d
      (do let args ← arguments inner
          return .inl (.call (.function p args (Span.between p.span args.span))) :
        Parse (Primary ⊕ Primary))
      (do let args ← arguments inner'
          return .inl (.call (.function p args (Span.between p.span args.span)))) :=
    (arguments_agrees h).bind fun _ => .pure _
  refine .bind .symbol fun s => ?_
  cases s with
  | dot => exact .bind .consume fun _ => .bind .expectName fun _ => .pure _
  | leftBracket =>
    exact .bind .consume fun _ => (expression_agrees h).bind fun _ => .bind (.expect _) fun _ =>
      .pure _
  | colon =>
    exact .bind .consume fun _ => .bind .expectName fun _ => (arguments_agrees h).bind fun _ =>
      .pure _
  | leftParen | string | leftBrace => exact hcall
  | _ => exact .pure _

theorem primary_agrees (h : inner.Agrees d inner') : Agrees d (primary inner) (primary inner') :=
  (primaryHead_agrees h).bind fun p => .loop (suffixStep_agrees h) p

/-- A numeral is read where its token is the current one. -/
theorem number_agreesAt {w : Window} (hw : w.Carries) (hs : w.current.symbol = .number) :
    AgreesAt d number number w := by
  refine .current ?_
  refine (Agrees.content hw.current (by rw [hs]; rfl)).bind (fun text => ?_) w hw
  cases Numeral.value? text with
  | some value => exact .bind .consume fun _ => .pure _
  | none => exact .fail _

theorem simpleOperand_agrees (h : inner.Agrees d inner') :
    Agrees d (simpleOperand inner) (simpleOperand inner') := by
  refine fun w hw => .current ?_
  cases UnaryOperator.ofSymbol? w.current.symbol with
  | some op => exact Agrees.bind .consume (fun _ => (h.operand _).bind fun _ => .pure _) w hw
  | none =>
    dsimp only
    generalize hs : w.current.symbol = s
    cases s with
    | kwNil | kwTrue | kwFalse | ellipsis =>
      exact Agrees.bind .consume (fun _ => .pure _) w hw
    | number => exact number_agreesAt hw hs
    | string =>
      refine Agrees.bind .consume (fun _ => ?_) w hw
      exact (Agrees.content hw.current (by rw [hs]; rfl)).bind fun _ => .pure _
    | kwFunction =>
      exact Agrees.bind .consume (fun _ => (functionBody_agrees h _).bind fun _ => .pure _) w hw
    | leftBrace => exact (table_agrees h).bind (fun _ => .pure _) w hw
    | name | leftParen => exact (primary_agrees h).bind (fun _ => .pure _) w hw
    | _ => exact Agrees.fail _ w hw

theorem operand_agrees (h : inner.Agrees d inner') (limit : Nat) :
    Agrees d (operand inner limit) (operand inner' limit) := by
  refine (simpleOperand_agrees h).bind fun e => .loop (fun left => .bind .symbol fun s => ?_) e
  cases BinaryOperator.ofSymbol? s with
  | some op =>
    exact .ite (.pure _) (.bind .consume fun _ => (h.operand _).bind fun _ => .pure _)
  | none => exact .pure _

/-! ## Lists that are not empty -/

theorem last?_eq_getLast? {α : Type} (as : List α) : last? as = as.getLast? := by
  cases as with
  | nil => rfl
  | cons a as =>
    have hminus : minus? (a :: as).length 1 = some ((a :: as).length - 1) :=
      if_pos (Nat.le_add_left 1 as.length)
    rw [last?, hminus, List.getLast?_eq_getElem?]
    rfl

/-! ## Statements -/

theorem clause_agrees (h : inner.Agrees d inner') (keyword : Span) :
    Agrees d (clause inner keyword) (clause inner' keyword) :=
  (expression_agrees h).bind fun _ => .bind (.expect _) fun _ => (h.block _).bind fun _ => .pure _

theorem conditional_agrees (h : inner.Agrees d inner') :
    Agrees d (conditional inner) (conditional inner') := by
  refine .bind .consume fun _ => (clause_agrees h _).bind fun first => ?_
  refine .bind (.separated _ (fun _ => clause_agrees h _) first) fun clauses => ?_
  refine .bind (.accept _) fun t => ?_
  cases t with
  | none => exact .bind (.pure _) fun _ => .bind (.expectClosing _ _ _) fun _ => .pure _
  | some t =>
    exact ((h.block _).map some).bind fun _ => .bind (.expectClosing _ _ _) fun _ => .pure _

theorem forBody_agrees (h : inner.Agrees d inner') (line : Nat) :
    Agrees d (forBody inner line) (forBody inner' line) :=
  .bind (.expect _) fun _ => (h.block _).bind fun _ => .bind (.expectClosing _ _ _) fun _ => .pure _

theorem numericFor_agrees (h : inner.Agrees d inner') (opening : Span) :
    Agrees d (numericFor inner opening) (numericFor inner' opening) := by
  refine .bind .expectName fun _ => .bind (.expect _) fun _ => (expression_agrees h).bind fun _ =>
    .bind (.expect _) fun _ => (expression_agrees h).bind fun _ => .bind (.accept _) fun t => ?_
  cases t with
  | none => exact .bind (.pure _) fun _ => (forBody_agrees h _).bind fun ⟨_, _⟩ => .pure _
  | some t =>
    exact ((expression_agrees h).map some).bind fun _ => (forBody_agrees h _).bind fun ⟨_, _⟩ =>
      .pure _

theorem genericFor_agrees (h : inner.Agrees d inner') (opening : Span) :
    Agrees d (genericFor inner opening) (genericFor inner' opening) :=
  .bind (.commaList .expectName) fun _ => .bind (.expect _) fun _ =>
    (expressionList_agrees h).bind fun _ => (forBody_agrees h _).bind fun ⟨_, _⟩ => .pure _

theorem forLoop_agrees (h : inner.Agrees d inner') : Agrees d (forLoop inner) (forLoop inner') := by
  refine .bind .consume fun _ => .bind .symbol fun _ =>
    .ite (.bind .followingSymbol fun s => ?_) (.fail _)
  cases s with
  | assign => exact numericFor_agrees h _
  | comma | kwIn => exact genericFor_agrees h _
  | _ => exact .bind .consume fun _ => .fail _

theorem pathSpan_agrees {first last : Name} {path : List Name} (hfirst : path[0]? = some first)
    (hlast : path.getLast? = some last) :
    Agrees d (pathSpan path first last) (pathSpan path first last) :=
  .bind (.check hfirst) fun _ => .bind (.check ((last?_eq_getLast? path).trans hlast)) fun _ =>
    .pure _

theorem functionName_agrees : Agrees d functionName functionName := by
  refine .bind .expectName fun first => .bind_of (.separated _ (fun _ => .expectName) _)
    (fun _ _ _ => LuaSource.Parse.exists_of_separated) ?_
  rintro _ ⟨rest, rfl⟩
  refine .bind (.accept _) fun t => ?_
  cases t with
  | some t =>
    exact .bind .expectName fun _ => (pathSpan_agrees rfl List.getLast?_concat).bind fun _ =>
      .pure _
  | none =>
    refine (pathSpan_agrees rfl ?_).bind fun _ => .pure _
    rw [List.getLast?_cons, Option.getD_some]

theorem functionStatement_agrees (h : inner.Agrees d inner') :
    Agrees d (functionStatement inner) (functionStatement inner') :=
  .bind .consume fun _ => functionName_agrees.bind fun _ =>
    (functionBody_agrees h _).bind fun _ => .pure _

theorem lastSpan_agrees {last : Name} {names : List Name} (hlast : names.getLast? = some last)
    (opening : Span) (values : List Expression) :
    Agrees d (lastSpan opening names values) (lastSpan opening names values) := by
  refine .check ?_
  rw [last?_eq_getLast?, hlast]
  cases values.getLast? <;> rfl

theorem localAssign_agrees (h : inner.Agrees d inner') (opening : Span) :
    Agrees d (localAssign inner opening) (localAssign inner' opening) := by
  refine .bind_of (.commaList .expectName) (fun _ _ _ => LuaSource.Parse.exists_of_commaList) ?_
  rintro _ ⟨first, rest, rfl⟩
  have hlast (values : List Expression) := lastSpan_agrees (d := d)
    (List.getLast?_cons (a := first) (l := rest)) opening values
  refine .bind (.accept _) fun t => ?_
  cases t with
  | some t => exact (expressionList_agrees h).bind fun _ => (hlast _).bind fun _ => .pure _
  | none => exact .bind (.pure _) fun _ => (hlast _).bind fun _ => .pure _

theorem localStatement_agrees (h : inner.Agrees d inner') :
    Agrees d (localStatement inner) (localStatement inner') := by
  refine .bind .consume fun _ => .bind (.accept _) fun t => ?_
  cases t with
  | some t => exact .bind .expectName fun _ => (functionBody_agrees h _).bind fun _ => .pure _
  | none => exact localAssign_agrees h _

theorem returnStatement_agrees (h : inner.Agrees d inner') :
    Agrees d (returnStatement inner) (returnStatement inner') :=
  .bind .consume fun _ => .bind .symbol fun _ => .ite_bind (.pure _) (expressionList_agrees h)
    fun _ => .bind (.accept _) fun _ => .pure _

theorem target_agrees (p : Primary) : Agrees d (target p) (target p) := by
  cases p with
  | var v => exact .pure _
  | call c => exact .fail _
  | parenthesized e span => exact .fail _

theorem assign_agrees (h : inner.Agrees d inner') (first : Variable) :
    Agrees d (assign inner first) (assign inner' first) := by
  refine .bind_of (.separated _ (fun _ => (primary_agrees h).bind target_agrees) first)
    (fun _ _ _ => LuaSource.Parse.exists_of_separated) ?_
  rintro _ ⟨rest, rfl⟩
  refine .bind (.expect _) fun _ => .bind_of (expressionList_agrees h)
    (fun _ _ _ => LuaSource.Parse.exists_of_commaList) ?_
  rintro _ ⟨value, values, rfl⟩
  refine .bind (.check rfl) fun _ => .bind (.check ?_) fun _ => .pure _
  rw [last?_eq_getLast?, List.getLast?_cons]
  rfl

theorem assignOrCall_agrees (h : inner.Agrees d inner') :
    Agrees d (assignOrCall inner) (assignOrCall inner') := by
  refine (primary_agrees h).bind fun p => .bind .symbol fun s => ?_
  cases s with
  | assign | comma => exact (target_agrees p).bind (assign_agrees h)
  | _ =>
    cases p with
    | var v => exact .fail _
    | call c => exact .pure _
    | parenthesized e span => exact .fail _

theorem statement_agrees (h : inner.Agrees d inner') :
    Agrees d (statement inner) (statement inner') := by
  refine .bind .symbol fun s => ?_
  cases s with
  | kwIf => exact conditional_agrees h
  | kwWhile =>
    exact .bind .consume fun _ => (expression_agrees h).bind fun _ => .bind (.expect _) fun _ =>
      (h.block _).bind fun _ => .bind (.expectClosing _ _ _) fun _ => .pure _
  | kwDo =>
    exact .bind .consume fun _ => (h.block _).bind fun _ => .bind (.expectClosing _ _ _) fun _ =>
      .pure _
  | kwFor => exact forLoop_agrees h
  | kwRepeat =>
    exact .bind .consume fun _ => (h.block _).bind fun _ => .bind (.expectClosing _ _ _) fun _ =>
      (expression_agrees h).bind fun _ => .pure _
  | kwFunction => exact functionStatement_agrees h
  | kwLocal => exact localStatement_agrees h
  | doubleColon =>
    exact .bind .consume fun _ => .bind .expectName fun _ => .bind (.expect _) fun _ => .pure _
  | kwGoto => exact .bind .consume fun _ => .bind .expectName fun _ => .pure _
  | _ => exact assignOrCall_agrees h

theorem statementStep_agrees (h : inner.Agrees d inner') (terminators : List Symbol)
    (statements : List Statement) :
    Agrees d (statementStep inner terminators statements)
      (statementStep inner' terminators statements) := by
  refine .bind .symbol fun s => .ite (.pure _) ?_
  cases s with
  | semicolon => exact .bind .consume fun _ => .pure _
  | kwReturn => exact (returnStatement_agrees h).bind fun _ => .pure _
  | kwBreak =>
    exact .bind (.bind .consume fun _ => .bind (.accept _) fun _ => .pure _) fun _ => .pure _
  | _ => exact (statement_agrees h).bind fun _ => .pure _

theorem block_agrees (h : inner.Agrees d inner') (terminators : List Symbol) :
    Agrees d (block inner terminators) (block inner' terminators) :=
  .bind .current fun _ => .bind (.loop (statementStep_agrees h terminators) []) fun _ => .pure _

theorem chunk_agrees (h : inner.Agrees d inner') : Agrees d (chunk inner) (chunk inner') :=
  (h.block []).bind fun _ => .bind .symbol fun _ => .ite (.pure _) (.fail _)

end Grammar

end LuaSource.Checked
