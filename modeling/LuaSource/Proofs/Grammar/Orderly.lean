-- SUMMARY: Parsers take tokens one by one, and end with a fault only at the token they have come to.
import LuaSource.Proofs.Grammar.LocalGrammar

/-!
# Orderly parsers

A parser changes the window only by taking the current token. So where it gives a result, it has
taken some tokens in a row; and where it ends with a fault, it has taken some, and the next one
either could not be taken or is the one that the fault quotes.
-/

namespace LuaSource

/-- The text of the token that a fault quotes; a lexical error has none. -/
def ParseFault.near? : ParseFault → Option String
  | lexical _ => none
  | expected _ near | unclosed _ _ _ near | unexpectedSymbol near | malformedNumber near
  | ambiguousCall near | invalidTarget near | notACall near | tooManyLevels near
  | expectedEither _ _ near | missingArguments near => some near

/-- The fault is raised at a window: it is an error met in reading on from there, or it quotes the
current token. -/
def Window.Raises (w : Window) (e : Located ParseFault) : Prop :=
  (∃ le, w.errorWithin? 3 = some le ∧ e = le.toFault) ∨
    e.cause.near? = some w.current.text ∧ e.span = w.current.span

namespace Parse

variable {α β : Type} {p q : Parse α} {f : α → Parse β}

/-- Wherever it starts, the parser comes to the window that it leaves or raises a fault at by taking
tokens one after the other. -/
structure Orderly (p : Parse α) : Prop where
  ok : ∀ {w a w'}, p w = .ok (a, w') → ∃ k, w.advance k = .ok w'
  fault : ∀ {w e}, p w = .error e → ∃ k w', w.advance k = .ok w' ∧ w'.Raises e

namespace Orderly

/-! ## Rules -/

theorem look {g : Window → α} : Orderly (fun w => .ok (g w, w)) where
  ok h := by
    cases h
    exact ⟨0, rfl⟩
  fault h := by cases h

theorem pure {a : α} : (pure a : Parse α).Orderly := look

theorem current : (Parsing.current : Parse _).Orderly := look

theorem symbol : (Parsing.symbol : Parse _).Orderly := look

theorem followingSymbol : (Parsing.followingSymbol : Parse _).Orderly := look

theorem onSameLine : (Parsing.onSameLine : Parse _).Orderly := look

theorem fail {fault : String → ParseFault} (h : ∀ near, (fault near).near? = some near) :
    (Parsing.fail fault : Parse α).Orderly where
  ok h := by cases h
  fault he := by
    cases he
    exact ⟨0, _, rfl, .inr ⟨h _, rfl⟩⟩

theorem consume : (Parsing.consume : Parse _).Orderly where
  ok {w t w'} h := by
    have hconsume : w.consume = .ok (t, w') := h
    exact ⟨1, by rw [Window.advance, hconsume]; rfl⟩
  fault {w e} h := by
    refine ⟨0, w, rfl, ?_⟩
    have hconsume : w.consume = .error e := h
    rw [Window.consume] at hconsume
    split at hconsume
    · next le hle =>
      cases hconsume
      exact .inl ⟨le, hle, rfl⟩
    · cases hconsume

theorem bind (hp : p.Orderly) (hf : ∀ a, (f a).Orderly) : (p >>= f).Orderly where
  ok h := by
    obtain ⟨a, w', h₁, h₂⟩ := bind_eq_ok_iff.1 h
    obtain ⟨k, hk⟩ := hp.ok h₁
    obtain ⟨l, hl⟩ := (hf a).ok h₂
    refine ⟨k + l, ?_⟩
    rw [Window.advance_add, hk]
    exact hl
  fault h := by
    rcases bind_eq_error_iff.1 h with h₁ | ⟨a, w', h₁, h₂⟩
    · exact hp.fault h₁
    · obtain ⟨k, hk⟩ := hp.ok h₁
      obtain ⟨l, w'', hl, hraises⟩ := (hf a).fault h₂
      refine ⟨k + l, w'', ?_, hraises⟩
      rw [Window.advance_add, hk]
      exact hl

theorem map (hp : p.Orderly) (g : α → β) : (g <$> p).Orderly := by
  rw [map_eq_pure_bind]
  exact hp.bind fun _ => pure

theorem ite {c : Prop} [Decidable c] (hp : p.Orderly) (hq : q.Orderly) :
    (if c then p else q).Orderly := by
  split
  · exact hp
  · exact hq

/-- Two ways of going on behind which the same comes. -/
theorem ite_bind {c : Prop} [Decidable c] (hp : p.Orderly) (hq : q.Orderly)
    (hf : ∀ a, (f a).Orderly) : (if c then p >>= f else q >>= f).Orderly :=
  ite (hp.bind hf) (hq.bind hf)

theorem accept (s : Symbol) : (accept s : Parse _).Orderly :=
  symbol.bind fun _ => ite (consume.bind fun _ => pure) pure

theorem expect (s : Symbol) : (expect s : Parse _).Orderly :=
  symbol.bind fun _ => ite consume (fail fun _ => rfl)

theorem expectClosing (closer opener : Symbol) (line : Nat) :
    (expectClosing closer opener line : Parse _).Orderly :=
  current.bind fun _ => ite consume (ite (fail fun _ => rfl) (fail fun _ => rfl))

theorem expectName : (expectName : Parse _).Orderly := (expect .name).bind fun _ => pure

theorem loopAlong {step : α → Parse (α ⊕ β)} (h : ∀ a, (step a).Orderly) (ts : List Token)
    (a : α) : (loopAlong step ts a).Orderly := by
  induction ts generalizing a with
  | nil =>
    refine (h a).bind fun r => ?_
    cases r with
    | inl _ => exact fail fun _ => rfl
    | inr b => exact pure
  | cons t ts ih =>
    refine (h a).bind fun r => ?_
    cases r with
    | inl a => exact ih a
    | inr b => exact pure

theorem loop {step : α → Parse (α ⊕ β)} (h : ∀ a, (step a).Orderly) (a : α) :
    (loop step a).Orderly where
  ok {w _ _} hok := (loopAlong h w.ahead a).ok hok
  fault {w _} herror := (loopAlong h w.ahead a).fault herror

theorem separated {separator : Symbol} {item : Token → Parse α} (h : ∀ t, (item t).Orderly)
    (first : α) : (separated separator item first).Orderly := by
  refine loop (fun items => (accept separator).bind fun t => ?_) _
  cases t with
  | none => exact pure
  | some t => exact (h t).bind fun _ => pure

theorem commaList (h : p.Orderly) : (commaList p).Orderly :=
  h.bind fun first => separated (fun _ => h) first

end Orderly

end Parse

/-- Every block and operand of the level is parsed in order. -/
structure Level.Orderly (inner : Level) : Prop where
  block : ∀ terminators, (inner.block terminators).Orderly
  operand : ∀ limit, (inner.operand limit).Orderly

namespace Orderly

open Parse

variable {inner : Level}

/-! ## Expressions -/

theorem expression_orderly (h : inner.Orderly) : (Grammar.expression inner).Orderly := h.operand 0

theorem expressionList_orderly (h : inner.Orderly) : (Grammar.expressionList inner).Orderly :=
  .commaList (expression_orderly h)

theorem parameterStep_orderly (names : List Name) :
    (Grammar.parameterStep names : Parse _).Orderly := by
  refine .bind (.accept _) fun t => ?_
  cases t with
  | some t => exact .pure
  | none =>
    refine .bind .expectName fun _ => .bind (.accept _) fun t => ?_
    cases t <;> exact .pure

theorem functionBody_orderly (h : inner.Orderly) (line : Nat) :
    (Grammar.functionBody inner line).Orderly :=
  .bind (.expect _) fun _ => .bind .symbol fun _ =>
    .ite_bind .pure (.loop parameterStep_orderly []) fun ⟨_, _⟩ =>
      .bind (.expect _) fun _ => (h.block _).bind fun _ => .bind (.expectClosing ..) fun _ => .pure

theorem field_orderly (h : inner.Orderly) : (Grammar.field inner).Orderly := by
  have hpositional : (do return .positional (← Grammar.expression inner) : Parse Field).Orderly :=
    (expression_orderly h).bind fun _ => .pure
  refine .bind .symbol fun s => ?_
  split
  · exact .bind .consume fun _ => (expression_orderly h).bind fun _ => .bind (.expect _) fun _ =>
      .bind (.expect _) fun _ => (expression_orderly h).bind fun _ => .pure
  · refine .bind .followingSymbol fun s => .ite ?_ hpositional
    exact .bind .expectName fun _ => .bind .consume fun _ => (expression_orderly h).bind fun _ =>
      .pure
  · exact hpositional

theorem acceptSeparator_orderly : (Grammar.acceptSeparator : Parse _).Orderly := by
  refine .bind (.accept _) fun t => ?_
  cases t with
  | some t => exact .pure
  | none => exact .bind (.accept _) fun _ => .pure

theorem table_orderly (h : inner.Orderly) : (Grammar.table inner).Orderly := by
  refine .bind (.expect _) fun _ => .bind (.loop (fun fields => ?_) _) fun _ =>
    .bind (.expectClosing ..) fun _ => .pure
  exact .bind .symbol fun _ => .ite .pure ((field_orderly h).bind fun _ =>
    acceptSeparator_orderly.bind fun _ => .ite .pure .pure)

theorem arguments_orderly (h : inner.Orderly) : (Grammar.arguments inner).Orderly := by
  refine .bind .symbol fun s => ?_
  split
  · refine .bind .onSameLine fun joined => .ite (.bind .consume fun _ => ?_) (.fail fun _ => rfl)
    exact .bind .symbol fun _ => .ite_bind .pure (expressionList_orderly h) fun _ =>
      .bind (.expectClosing ..) fun _ => .pure
  · exact (table_orderly h).bind fun _ => .pure
  · exact .bind .consume fun _ => .pure
  · exact .fail fun _ => rfl

theorem primaryHead_orderly (h : inner.Orderly) : (Grammar.primaryHead inner).Orderly := by
  refine .bind .symbol fun s => ?_
  split
  · exact .bind .expectName fun _ => .pure
  · exact .bind .consume fun _ => (expression_orderly h).bind fun _ =>
      .bind (.expectClosing ..) fun _ => .pure
  · exact .fail fun _ => rfl

theorem suffixStep_orderly (h : inner.Orderly) (p : Primary) :
    (Grammar.suffixStep inner p).Orderly := by
  refine .bind .symbol fun s => ?_
  split
  · exact .bind .consume fun _ => .bind .expectName fun _ => .pure
  · exact .bind .consume fun _ => (expression_orderly h).bind fun _ => .bind (.expect _) fun _ =>
      .pure
  · exact .bind .consume fun _ => .bind .expectName fun _ => (arguments_orderly h).bind fun _ =>
      .pure
  · exact (arguments_orderly h).bind fun _ => .pure
  · exact (arguments_orderly h).bind fun _ => .pure
  · exact (arguments_orderly h).bind fun _ => .pure
  · exact .pure

theorem primary_orderly (h : inner.Orderly) : (Grammar.primary inner).Orderly :=
  (primaryHead_orderly h).bind fun p => .loop (suffixStep_orderly h) p

theorem number_orderly : (Grammar.number : Parse _).Orderly := by
  refine .bind .current fun t => ?_
  rw [content_bind]
  split
  · exact .bind .consume fun _ => .pure
  · exact .fail fun _ => rfl

theorem simpleOperand_orderly (h : inner.Orderly) : (Grammar.simpleOperand inner).Orderly := by
  refine .bind .current fun token => ?_
  split
  · exact .bind .consume fun _ => (h.operand _).bind fun _ => .pure
  · split
    · exact .bind .consume fun _ => .pure
    · exact .bind .consume fun _ => .pure
    · exact .bind .consume fun _ => .pure
    · exact .bind .consume fun _ => .pure
    · exact number_orderly
    · exact .bind .consume fun _ => .pure
    · exact .bind .consume fun _ => (functionBody_orderly h _).bind fun _ => .pure
    · exact (table_orderly h).bind fun _ => .pure
    · exact (primary_orderly h).bind fun _ => .pure
    · exact (primary_orderly h).bind fun _ => .pure
    · exact .fail fun _ => rfl

theorem operand_orderly (h : inner.Orderly) (limit : Nat) :
    (Grammar.operand inner limit).Orderly := by
  refine (simpleOperand_orderly h).bind fun e => .loop (fun left => .bind .symbol fun s => ?_) e
  split
  · exact .ite .pure (.bind .consume fun _ => (h.operand _).bind fun _ => .pure)
  · exact .pure

/-! ## Statements -/

theorem clause_orderly (h : inner.Orderly) (keyword : Span) :
    (Grammar.clause inner keyword).Orderly :=
  (expression_orderly h).bind fun _ => .bind (.expect _) fun _ => (h.block _).bind fun _ => .pure

theorem conditional_orderly (h : inner.Orderly) : (Grammar.conditional inner).Orderly := by
  refine .bind .consume fun _ => (clause_orderly h _).bind fun first => ?_
  refine .bind (.separated (fun _ => clause_orderly h _) first) fun clauses => ?_
  refine .bind (.accept _) fun t => ?_
  cases t with
  | none => exact .bind .pure fun _ => .bind (.expectClosing ..) fun _ => .pure
  | some t =>
    exact ((h.block _).map some).bind fun _ => .bind (.expectClosing ..) fun _ => .pure

theorem forBody_orderly (h : inner.Orderly) (line : Nat) : (Grammar.forBody inner line).Orderly :=
  .bind (.expect _) fun _ => (h.block _).bind fun _ => .bind (.expectClosing ..) fun _ => .pure

theorem numericFor_orderly (h : inner.Orderly) (opening : Span) :
    (Grammar.numericFor inner opening).Orderly := by
  refine .bind .expectName fun _ => .bind (.expect _) fun _ => (expression_orderly h).bind fun _ =>
    .bind (.expect _) fun _ => (expression_orderly h).bind fun _ => .bind (.accept _) fun t => ?_
  cases t with
  | none => exact .bind .pure fun _ => (forBody_orderly h _).bind fun _ => .pure
  | some t =>
    exact ((expression_orderly h).map some).bind fun _ => (forBody_orderly h _).bind fun _ => .pure

theorem genericFor_orderly (h : inner.Orderly) (opening : Span) :
    (Grammar.genericFor inner opening).Orderly :=
  .bind (.commaList .expectName) fun _ => .bind (.expect _) fun _ =>
    (expressionList_orderly h).bind fun _ => (forBody_orderly h _).bind fun _ => .pure

theorem forLoop_orderly (h : inner.Orderly) : (Grammar.forLoop inner).Orderly := by
  refine .bind .consume fun _ => .bind .symbol fun _ =>
    .ite (.bind .followingSymbol fun s => ?_) (.fail fun _ => rfl)
  split
  · exact numericFor_orderly h _
  · exact genericFor_orderly h _
  · exact genericFor_orderly h _
  · exact .bind .consume fun _ => .fail fun _ => rfl

theorem functionName_orderly : (Grammar.functionName : Parse _).Orderly := by
  refine .bind .expectName fun _ => .bind (.separated (fun _ => .expectName) _) fun _ =>
    .bind (.accept _) fun t => ?_
  cases t with
  | none => exact .pure
  | some t => exact .bind .expectName fun _ => .pure

theorem localStatement_orderly (h : inner.Orderly) : (Grammar.localStatement inner).Orderly := by
  refine .bind .consume fun _ => .bind (.accept _) fun t => ?_
  cases t with
  | some t => exact .bind .expectName fun _ => (functionBody_orderly h _).bind fun _ => .pure
  | none =>
    refine .bind (.commaList .expectName) fun _ => .bind (.accept _) fun t => ?_
    cases t with
    | none => exact .bind .pure fun _ => .pure
    | some t => exact (expressionList_orderly h).bind fun _ => .pure

theorem returnStatement_orderly (h : inner.Orderly) : (Grammar.returnStatement inner).Orderly :=
  .bind .consume fun _ => .bind .symbol fun _ => .ite_bind .pure (expressionList_orderly h)
    fun _ => .bind (.accept _) fun _ => .pure

theorem target_orderly (p : Primary) : (Grammar.target p : Parse _).Orderly := by
  cases p with
  | var v => exact .pure
  | call c => exact .fail fun _ => rfl
  | parenthesized e span => exact .fail fun _ => rfl

theorem assign_orderly (h : inner.Orderly) (first : Variable) :
    (Grammar.assign inner first).Orderly :=
  .bind (.separated (fun _ => (primary_orderly h).bind target_orderly) first) fun _ =>
    .bind (.expect _) fun _ => (expressionList_orderly h).bind fun _ => .pure

theorem assignOrCall_orderly (h : inner.Orderly) : (Grammar.assignOrCall inner).Orderly := by
  refine (primary_orderly h).bind fun p => .bind .symbol fun s => ?_
  split
  · exact (target_orderly p).bind (assign_orderly h)
  · exact (target_orderly p).bind (assign_orderly h)
  · cases p with
    | var v => exact .fail fun _ => rfl
    | call c => exact .pure
    | parenthesized e span => exact .fail fun _ => rfl

theorem statement_orderly (h : inner.Orderly) : (Grammar.statement inner).Orderly := by
  refine .bind .symbol fun s => ?_
  split
  · exact conditional_orderly h
  · exact .bind .consume fun _ => (expression_orderly h).bind fun _ => .bind (.expect _) fun _ =>
      (h.block _).bind fun _ => .bind (.expectClosing ..) fun _ => .pure
  · exact .bind .consume fun _ => (h.block _).bind fun _ => .bind (.expectClosing ..) fun _ => .pure
  · exact forLoop_orderly h
  · exact .bind .consume fun _ => (h.block _).bind fun _ => .bind (.expectClosing ..) fun _ =>
      (expression_orderly h).bind fun _ => .pure
  · exact .bind .consume fun _ => functionName_orderly.bind fun _ =>
      (functionBody_orderly h _).bind fun _ => .pure
  · exact localStatement_orderly h
  · exact .bind .consume fun _ => .bind .expectName fun _ => .bind (.expect _) fun _ => .pure
  · exact .bind .consume fun _ => .bind .expectName fun _ => .pure
  · exact assignOrCall_orderly h

theorem statementStep_orderly (h : inner.Orderly) (terminators : List Symbol)
    (statements : List Statement) :
    (Grammar.statementStep inner terminators statements).Orderly := by
  refine .bind .symbol fun s => .ite .pure ?_
  split
  · exact .bind .consume fun _ => .pure
  · exact (returnStatement_orderly h).bind fun _ => .pure
  · exact .bind (.bind .consume fun _ => .bind (.accept _) fun _ => .pure) fun _ => .pure
  · exact (statement_orderly h).bind fun _ => .pure

theorem block_orderly (h : inner.Orderly) (terminators : List Symbol) :
    (Grammar.block inner terminators).Orderly :=
  .bind .current fun _ => .bind (.loop (statementStep_orderly h terminators) []) fun _ => .pure

/-! ## Levels -/

theorem orderly_ofDepth (depth : Nat) : (Level.ofDepth depth).Orderly := by
  induction depth with
  | zero => exact ⟨fun _ => .fail fun _ => rfl, fun _ => .fail fun _ => rfl⟩
  | succ depth ih => exact ⟨block_orderly ih, operand_orderly ih⟩

theorem chunk_orderly (depth : Nat) : (Grammar.chunk (Level.ofDepth depth)).Orderly :=
  ((orderly_ofDepth depth).block []).bind fun _ => .bind .symbol fun _ =>
    .ite .pure (.fail fun _ => rfl)

end Orderly

end LuaSource
