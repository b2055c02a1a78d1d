-- SUMMARY: With more levels of nesting, a parse that had enough of them stays the same.
import LuaSource.Grammar.Statement

/-!
# Parsers with fewer levels

A parser is below another one if it does the same except where it ends for want of levels. The
ways of combining parsers preserve this, so that every production is below itself with a level
inside that has more levels.
-/

namespace LuaSource

/-- Whether there were not enough levels of nesting. -/
def ParseFault.isTooDeep : ParseFault → Bool
  | tooManyLevels _ => true
  | _ => false

namespace Parse

open Parsing

variable {α β : Type} {p p' q q' : Parse α} {f f' : α → Parse β}

/-- The first parser does what the second one does, or has too few levels for it. -/
def Below (p q : Parse α) : Prop :=
  ∀ w, p w = q w ∨ ∃ e, p w = .error e ∧ e.cause.isTooDeep = true

namespace Below

theorem refl : p.Below p := fun _ => .inl rfl

theorem tooManyLevels : (fail .tooManyLevels : Parse α).Below q :=
  fun _ => .inr ⟨_, rfl, rfl⟩

theorem bind (hp : p.Below p') (hf : ∀ a, (f a).Below (f' a)) : (p >>= f).Below (p' >>= f') := by
  intro w
  rw [bind_apply, bind_apply]
  rcases hp w with h | ⟨e, h, hdeep⟩
  · rw [h]
    cases p' w with
    | error e => exact .inl rfl
    | ok r => exact hf r.1 r.2
  · rw [h]
    exact .inr ⟨e, rfl, hdeep⟩

theorem map (hp : p.Below p') (g : α → β) : (g <$> p).Below (g <$> p') := by
  rw [map_eq_pure_bind, map_eq_pure_bind]
  exact hp.bind fun _ => refl

theorem ite {c : Prop} [Decidable c] (hp : p.Below p') (hq : q.Below q') :
    (if c then p else q).Below (if c then p' else q') := by
  split
  · exact hp
  · exact hq

/-- Two ways of going on behind which the same comes. -/
theorem ite_bind {c : Prop} [Decidable c] (hp : p.Below p') (hq : q.Below q')
    (hf : ∀ a, (f a).Below (f' a)) :
    (if c then p >>= f else q >>= f).Below (if c then p' >>= f' else q' >>= f') :=
  ite (hp.bind hf) (hq.bind hf)

theorem loopAlong {step step' : α → Parse (α ⊕ β)} (h : ∀ a, (step a).Below (step' a))
    (ts : List Token) (a : α) : (loopAlong step ts a).Below (Parse.loopAlong step' ts a) := by
  induction ts generalizing a with
  | nil =>
    refine (h a).bind fun r => ?_
    cases r <;> exact refl
  | cons t ts ih =>
    refine (h a).bind fun r => ?_
    cases r with
    | inl a => exact ih a
    | inr b => exact refl

theorem loop {step step' : α → Parse (α ⊕ β)} (h : ∀ a, (step a).Below (step' a)) (a : α) :
    (loop step a).Below (Parse.loop step' a) := fun w => loopAlong h w.ahead a w

theorem separated {separator : Symbol} {item item' : Token → Parse α}
    (h : ∀ t, (item t).Below (item' t)) (first : α) :
    (separated separator item first).Below (Parse.separated separator item' first) := by
  refine loop (fun items => refl.bind fun t => ?_) _
  cases t with
  | none => exact refl
  | some t => exact (h t).bind fun _ => refl

theorem commaList (h : p.Below p') : (commaList p).Below (Parse.commaList p') :=
  h.bind fun first => separated (fun _ => h) first

end Below

end Parse

/-- Every block and operand of the first level is below that of the second. -/
structure Level.Below (inner inner' : Level) : Prop where
  block : ∀ terminators, (inner.block terminators).Below (inner'.block terminators)
  operand : ∀ limit, (inner.operand limit).Below (inner'.operand limit)

namespace Below

open Parse

variable {inner inner' : Level}

/-! ## Expressions -/

theorem expression_below (h : inner.Below inner') :
    (Grammar.expression inner).Below (Grammar.expression inner') := h.operand 0

theorem expressionList_below (h : inner.Below inner') :
    (Grammar.expressionList inner).Below (Grammar.expressionList inner') :=
  .commaList (expression_below h)

theorem functionBody_below (h : inner.Below inner') (line : Nat) :
    (Grammar.functionBody inner line).Below (Grammar.functionBody inner' line) :=
  .bind .refl fun _ => .bind .refl fun _ => .ite_bind .refl .refl fun ⟨_, _⟩ =>
    .bind .refl fun _ => (h.block _).bind fun _ => .refl

theorem field_below (h : inner.Below inner') :
    (Grammar.field inner).Below (Grammar.field inner') := by
  have hpositional : (do return .positional (← Grammar.expression inner) : Parse Field).Below
      (do return .positional (← Grammar.expression inner')) :=
    (expression_below h).bind fun _ => .refl
  refine .bind .refl fun s => ?_
  split
  · exact .bind .refl fun _ => (expression_below h).bind fun _ => .bind .refl fun _ =>
      .bind .refl fun _ => (expression_below h).bind fun _ => .refl
  · refine .bind .refl fun s => .ite ?_ hpositional
    exact .bind .refl fun _ => .bind .refl fun _ => (expression_below h).bind fun _ => .refl
  · exact hpositional

theorem table_below (h : inner.Below inner') :
    (Grammar.table inner).Below (Grammar.table inner') := by
  refine .bind .refl fun _ => .bind (.loop (fun fields => ?_) _) fun _ => .refl
  exact .bind .refl fun _ => .ite .refl ((field_below h).bind fun _ => .refl)

theorem arguments_below (h : inner.Below inner') :
    (Grammar.arguments inner).Below (Grammar.arguments inner') := by
  refine .bind .refl fun s => ?_
  split
  · refine .bind .refl fun joined => .ite (.bind .refl fun _ => ?_) .refl
    exact .bind .refl fun _ => .ite_bind .refl (expressionList_below h) fun _ => .refl
  · exact (table_below h).bind fun _ => .refl
  · exact .refl
  · exact .refl

theorem primaryHead_below (h : inner.Below inner') :
    (Grammar.primaryHead inner).Below (Grammar.primaryHead inner') := by
  refine .bind .refl fun s => ?_
  split
  · exact .refl
  · exact .bind .refl fun _ => (expression_below h).bind fun _ => .refl
  · exact .refl

theorem suffixStep_below (h : inner.Below inner') (p : Primary) :
    (Grammar.suffixStep inner p).Below (Grammar.suffixStep inner' p) := by
  refine .bind .refl fun s => ?_
  split
  · exact .refl
  · exact .bind .refl fun _ => (expression_below h).bind fun _ => .refl
  · exact .bind .refl fun _ => .bind .refl fun _ => (arguments_below h).bind fun _ => .refl
  · exact (arguments_below h).bind fun _ => .refl
  · exact (arguments_below h).bind fun _ => .refl
  · exact (arguments_below h).bind fun _ => .refl
  · exact .refl

theorem primary_below (h : inner.Below inner') :
    (Grammar.primary inner).Below (Grammar.primary inner') :=
  (primaryHead_below h).bind fun p => .loop (suffixStep_below h) p

theorem simpleOperand_below (h : inner.Below inner') :
    (Grammar.simpleOperand inner).Below (Grammar.simpleOperand inner') := by
  refine .bind .refl fun token => ?_
  split
  · exact .bind .refl fun _ => (h.operand _).bind fun _ => .refl
  · split
    · exact .refl
    · exact .refl
    · exact .refl
    · exact .refl
    · exact .refl
    · exact .refl
    · exact .bind .refl fun _ => (functionBody_below h _).bind fun _ => .refl
    · exact (table_below h).bind fun _ => .refl
    · exact (primary_below h).bind fun _ => .refl
    · exact (primary_below h).bind fun _ => .refl
    · exact .refl

theorem operand_below (h : inner.Below inner') (limit : Nat) :
    (Grammar.operand inner limit).Below (Grammar.operand inner' limit) := by
  refine (simpleOperand_below h).bind fun e => .loop (fun left => .bind .refl fun s => ?_) e
  split
  · exact .ite .refl (.bind .refl fun _ => (h.operand _).bind fun _ => .refl)
  · exact .refl

/-! ## Statements -/

theorem clause_below (h : inner.Below inner') (keyword : Span) :
    (Grammar.clause inner keyword).Below (Grammar.clause inner' keyword) :=
  (expression_below h).bind fun _ => .bind .refl fun _ => (h.block _).bind fun _ => .refl

theorem conditional_below (h : inner.Below inner') :
    (Grammar.conditional inner).Below (Grammar.conditional inner') := by
  refine .bind .refl fun _ => (clause_below h _).bind fun first => ?_
  refine .bind (.separated (fun _ => clause_below h _) first) fun clauses => ?_
  refine .bind .refl fun t => ?_
  cases t with
  | none => exact .refl
  | some t => exact ((h.block _).map some).bind fun _ => .refl

theorem forBody_below (h : inner.Below inner') (line : Nat) :
    (Grammar.forBody inner line).Below (Grammar.forBody inner' line) :=
  .bind .refl fun _ => (h.block _).bind fun _ => .refl

theorem numericFor_below (h : inner.Below inner') (opening : Span) :
    (Grammar.numericFor inner opening).Below (Grammar.numericFor inner' opening) := by
  refine .bind .refl fun _ => .bind .refl fun _ => (expression_below h).bind fun _ => ?_
  refine .bind .refl fun _ => (expression_below h).bind fun _ => .bind .refl fun t => ?_
  cases t with
  | none => exact .bind .refl fun _ => (forBody_below h _).bind fun _ => .refl
  | some t =>
    exact ((expression_below h).map some).bind fun _ => (forBody_below h _).bind fun _ => .refl

theorem genericFor_below (h : inner.Below inner') (opening : Span) :
    (Grammar.genericFor inner opening).Below (Grammar.genericFor inner' opening) :=
  .bind .refl fun _ => .bind .refl fun _ => (expressionList_below h).bind fun _ =>
    (forBody_below h _).bind fun _ => .refl

theorem forLoop_below (h : inner.Below inner') :
    (Grammar.forLoop inner).Below (Grammar.forLoop inner') := by
  refine .bind .refl fun _ => .bind .refl fun _ => .ite (.bind .refl fun s => ?_) .refl
  split
  · exact numericFor_below h _
  · exact genericFor_below h _
  · exact genericFor_below h _
  · exact .refl

theorem localStatement_below (h : inner.Below inner') :
    (Grammar.localStatement inner).Below (Grammar.localStatement inner') := by
  refine .bind .refl fun _ => .bind .refl fun t => ?_
  cases t with
  | some t => exact .bind .refl fun _ => (functionBody_below h _).bind fun _ => .refl
  | none =>
    refine .bind .refl fun _ => .bind .refl fun t => ?_
    cases t with
    | none => exact .refl
    | some t => exact (expressionList_below h).bind fun _ => .refl

theorem returnStatement_below (h : inner.Below inner') :
    (Grammar.returnStatement inner).Below (Grammar.returnStatement inner') :=
  .bind .refl fun _ => .bind .refl fun _ => .ite_bind .refl (expressionList_below h)
    fun _ => .refl

theorem assign_below (h : inner.Below inner') (first : Variable) :
    (Grammar.assign inner first).Below (Grammar.assign inner' first) :=
  .bind (.separated (fun _ => (primary_below h).bind fun _ => .refl) first) fun _ =>
    .bind .refl fun _ => (expressionList_below h).bind fun _ => .refl

theorem assignOrCall_below (h : inner.Below inner') :
    (Grammar.assignOrCall inner).Below (Grammar.assignOrCall inner') := by
  refine (primary_below h).bind fun p => .bind .refl fun s => ?_
  split
  · exact .bind .refl (assign_below h)
  · exact .bind .refl (assign_below h)
  · exact .refl

theorem statement_below (h : inner.Below inner') :
    (Grammar.statement inner).Below (Grammar.statement inner') := by
  refine .bind .refl fun s => ?_
  split
  · exact conditional_below h
  · exact .bind .refl fun _ => (expression_below h).bind fun _ => .bind .refl fun _ =>
      (h.block _).bind fun _ => .refl
  · exact .bind .refl fun _ => (h.block _).bind fun _ => .refl
  · exact forLoop_below h
  · exact .bind .refl fun _ => (h.block _).bind fun _ => .bind .refl fun _ =>
      (expression_below h).bind fun _ => .refl
  · exact .bind .refl fun _ => .bind .refl fun _ => (functionBody_below h _).bind fun _ => .refl
  · exact localStatement_below h
  · exact .refl
  · exact .refl
  · exact assignOrCall_below h

theorem statementStep_below (h : inner.Below inner') (terminators : List Symbol)
    (statements : List Statement) :
    (Grammar.statementStep inner terminators statements).Below
      (Grammar.statementStep inner' terminators statements) := by
  refine .bind .refl fun s => .ite .refl ?_
  split
  · exact .refl
  · exact (returnStatement_below h).bind fun _ => .refl
  · exact .refl
  · exact (statement_below h).bind fun _ => .refl

theorem block_below (h : inner.Below inner') (terminators : List Symbol) :
    (Grammar.block inner terminators).Below (Grammar.block inner' terminators) :=
  .bind .refl fun _ => .bind (.loop (statementStep_below h terminators) []) fun _ => .refl

/-! ## Levels -/

theorem below_ofDepth {depth depth' : Nat} (h : depth ≤ depth') :
    (Level.ofDepth depth).Below (Level.ofDepth depth') := by
  induction depth generalizing depth' with
  | zero => exact ⟨fun _ => .tooManyLevels, fun _ => .tooManyLevels⟩
  | succ depth ih =>
    cases depth' with
    | zero => exact absurd h (Nat.not_succ_le_zero depth)
    | succ depth' =>
      have hinner := ih (Nat.le_of_succ_le_succ h)
      exact ⟨block_below hinner, operand_below hinner⟩

theorem chunk_below {depth depth' : Nat} (h : depth ≤ depth') :
    (Grammar.chunk (Level.ofDepth depth)).Below (Grammar.chunk (Level.ofDepth depth')) :=
  ((below_ofDepth h).block []).bind fun _ => .refl

end Below

end LuaSource
