-- SUMMARY: How every production runs at a fork.
import LuaSource.Grammar.Statement
import LuaSource.Proofs.Closing.ForkRules
import LuaSource.Proofs.Grammar.LocalGrammar
import LuaSource.Proofs.Grammar.ReadExpression

/-!
# Forks in the grammar

Each production is followed through a fork, given what the level inside it does there. Wherever an
item may be missing before a closer, a name begins the item.
-/

namespace LuaSource

/-- What a level does at forks, whose operands are items. -/
structure Level.Forks (inner : Level) (c : Symbol) : Prop where
  toLocal : inner.Local
  block : ∀ terminators, .name ∉ terminators → (inner.block terminators).Forks c
  operand : ∀ limit, (inner.operand limit).Forks c
  item : ∀ limit, (inner.operand limit).Item

namespace Forking

open Parse Parsing
open Local (parameterStep_local fieldStep_local suffixStep_local operatorStep_local
  statementStep_local)

variable {inner : Level} {c : Symbol} {k : Nat} {w v n : Window}

theorem expression_forks (h : inner.Forks c) : (Grammar.expression inner).Forks c := h.operand 0

theorem expressionList_forks (h : inner.Forks c) : (Grammar.expressionList inner).Forks c :=
  commaList_forks (expression_forks h)

theorem expressionList_item (h : inner.Forks c) : (Grammar.expressionList inner).Item :=
  (h.item 0).bind fun _ =>
    separated_local (by decide) (fun _ => (expression_forks h).toLocal) _

/-! ## Functions -/

theorem parameterStep_forks (names : List Name) :
    (Grammar.parameterStep names : Parse _).Forks c := by
  refine (accept_forks (by decide) (by decide) (by decide)).bind fun t => ?_
  cases t with
  | some t => exact .pure
  | none =>
    refine expectName_forks.bind fun _ => ?_
    refine (accept_forks (by decide) (by decide) (by decide)).bind fun t => ?_
    cases t <;> exact .pure

theorem parameterStep_item (names : List Name) : (Grammar.parameterStep names : Parse _).Item := by
  refine fun w hw => .accept hw (by decide) (by decide) (fun _ => .pure) ?_
  refine (expectName_item w hw).bind hw fun _ => (accept_local (by decide)).bind fun t => ?_
  cases t <;> exact .pure

theorem functionBody_forks (h : inner.Forks c) (line : Nat) :
    (Grammar.functionBody inner line).Forks c := by
  refine (expect_forks (by decide)).bind fun opening => ?_
  have hrest : ∀ r : List Name × Bool, Parse.Forks (do
      let _ ← expect .rightParen
      let body ← inner.block [.kwEnd]
      let closing ← expectClosing .kwEnd .kwFunction line
      return (⟨r.1, r.2, body, Span.between opening.span closing.span⟩ : FunctionBody)) c :=
    fun r => (expect_forks (by decide)).bind fun _ => (h.block _ (by decide)).bind fun _ =>
      (expectClosing_forks (by decide)).bind fun _ => .pure
  refine .unless_bind (P := (· = .rightParen)) (loop_item parameterStep_local
    (parameterStep_item [])) (loop_forks_of_forks parameterStep_local parameterStep_forks [])
    (by decide) ?_ hrest
  rintro rfl
  decide

/-! ## Tables -/

theorem positional_forks (h : inner.Forks c) :
    (do return .positional (← Grammar.expression inner) : Parse Field).Forks c :=
  (expression_forks h).bind fun _ => .pure

theorem field_item (h : inner.Forks c) : (Grammar.field inner).Item := by
  intro w hw
  have hpositional : (do return .positional (← Grammar.expression inner) : Parse Field).Item :=
    (h.item 0).bind fun _ => .pure
  refine .symbol hw ?_
  split
  · next hs =>
    refine .take hw hs (by decide) (by decide) fun _ => ?_
    exact (expression_forks h).toLocal.bind fun _ => (expect_local (by decide)).bind fun _ =>
      (expect_local (by decide)).bind fun _ => (expression_forks h).toLocal.bind fun _ => .pure
  · next hs =>
    refine .of_takes (by rw [hs]; decide) (.followingSymbol hw (fun _ => le_rfl) ?_)
    split
    · next hnext =>
      refine (expectName_localAt_name hw hs).bind hw le_rfl fun name w' hw' hname => ?_
      have hcurrent := ((expectName_meets hw).ok hname).2.2
      refine (LocalAt.take (m := 0) hw' ?_ (Nat.zero_le 1) fun _ => ?_).zero
      · rw [hcurrent, hnext]
        decide
      · exact (expression_forks h).toLocal.bind fun _ => .pure
    · exact (h.toLocal.name 0 w hw hs).thenLocal hw le_rfl fun _ => .pure
  · exact hpositional w hw

/-- A field that is told by its name, where the sign behind it has been seen. -/
def namedField (inner : Level) : Parse Field := do
  let name ← expectName
  let _ ← consume
  let value ← Grammar.expression inner
  return .named name value (Span.between name.span value.span)

/-- The name is taken together with the sign. -/
theorem namedField_beyond (h : inner.Forks c) (hw : w.Proper) (hs : w.current.symbol = .name)
    (hnext : w.following.symbol = .assign) : (namedField inner).Beyond 1 w := by
  have hname : (expectName : Parse _).LocalAt w 2 fun _ => 1 := by
    refine LocalAt.bind (n := fun _ => 1) ?_ hw le_rfl fun t w' _ _ => .pure rfl
    refine .symbol hw ?_
    rw [if_pos hs]
    exact consume_localAt hw (by simp [hs])
  refine hname.bind hw le_rfl fun name w' hw' hok => ?_
  have hcurrent := ((expectName_meets hw).ok hok).2.2
  refine .take hw' ?_ le_rfl fun _ => (expression_forks h).toLocal.bind fun _ => .pure
  rw [hcurrent, hnext]
  decide

theorem namedField_forksAt (h : inner.Forks c) (hfork : Fork c (k + 2) w v n)
    (hnext : w.following.symbol = .assign) :
    (namedField inner).ForksAt (fun _ => False) c (k + 2) w v n := by
  have hsign : ∀ {u name u'}, u = w ∨ u = n → (expectName : Parse Name) u = .ok (name, u') →
      u'.current.symbol = .assign := by
    intro u name u' hu hname
    rw [((expectName_meets (hfork.proper_of_eq hu)).ok hname).2.2, hfork.following_of_eq hu, hnext]
  refine .bind hfork (fun hu => (expectName_localAt (hfork.proper_of_eq hu)).zero)
    (fun hu hu' hname => ?_) (expectName_forks.forksAt hfork) (fun _ _ => False.elim)
    fun hname _ _ hfork' => ?_
  · refine (LocalAt.take (m := 0) hu' ?_ (Nat.zero_le 1) fun _ => ?_).zero
    · simp [hsign hu hname]
    · exact (expression_forks h).toLocal.bind fun _ => .pure
  · refine .take hfork' ?_ fun _ => (expression_forks h).bind fun _ => .pure
    simp [hsign (.inl rfl) hname]

theorem field_of_name (hs : w.current.symbol = .name) :
    Grammar.field inner w =
      (if w.following.symbol = .assign then namedField inner
        else do return .positional (← Grammar.expression inner)) w := by
  rw [Grammar.field, symbol_bind, hs]
  rfl

theorem field_forksAt_of_name (h : inner.Forks c) (hfork : Fork c (k + 1) w v n)
    (hs : w.current.symbol = .name) :
    (Grammar.field inner).ForksAt (fun _ => False) c (k + 1) w v n := by
  cases k with
  | zero =>
    by_cases hnext : w.following.symbol = .assign
    · refine .of_beyond hfork ((namedField_beyond h hfork.proper hs hnext).congr hfork.proper
        fun u hu => ?_)
      rw [field_of_name (by rw [← hu.current, hs]), ← hu.following (by decide), if_pos hnext]
    · refine ((positional_forks h).forksAt hfork).congr hfork ?_ ?_ fun u hu => ?_
      · rw [field_of_name hs, if_neg hnext]
      · rw [field_of_name (by rw [hfork.closer.current, hs]), hfork.closer.symbol_following, if_neg]
        rintro rfl
        exact absurd hfork.mem (by decide)
      · rw [field_of_name (by rw [← hu.current, hfork.name.current, hs]),
          ← hu.following (by decide), hfork.name.symbol_following]
        rfl
  | succ k =>
    refine .symbol hfork ?_
    rw [hs]
    refine .followingSymbol hfork ?_
    split
    · next hnext => exact namedField_forksAt h hfork hnext
    · exact (positional_forks h).forksAt hfork

theorem field_forks (h : inner.Forks c) : (Grammar.field inner).Forks c := by
  refine .of_item (field_item h) fun {k w v n} hfork => ?_
  by_cases hs : w.current.symbol = .name
  · exact field_forksAt_of_name h hfork hs
  · refine .symbol hfork ?_
    split
    · next hs =>
      refine .take hfork (by simp [hs]) fun _ => ?_
      exact (expression_forks h).bind fun _ => (expect_forks (by decide)).bind fun _ =>
        (expect_forks (by decide)).bind fun _ => (expression_forks h).bind fun _ => .pure
    · next hname => exact absurd hname hs
    · exact (positional_forks h).forksAt hfork

theorem acceptSeparator_forks : (Grammar.acceptSeparator : Parse _).Forks c := by
  refine (accept_forks (by decide) (by decide) (by decide)).bind fun t => ?_
  cases t with
  | some t => exact .pure
  | none => exact (accept_forks (by decide) (by decide) (by decide)).bind fun _ => .pure

theorem fieldStep_forks (h : inner.Forks c) (fields : List Field) :
    (Grammar.fieldStep inner fields).Forks c := by
  have hrest : ∀ f : Field, Parse.Forks (do
      if ← Grammar.acceptSeparator then return .inl (f :: fields)
      else return .inr (f :: fields).reverse : Parse (List Field ⊕ List Field)) c := by
    intro f
    refine acceptSeparator_forks.bind fun b => ?_
    split
    · exact .pure
    · exact .pure
  refine .unless (P := (· = .rightBrace)) ((field_item h).bind fun f => (hrest f).toLocal)
    ((field_forks h).bind hrest) (by decide) ?_
  rintro rfl
  decide

theorem table_forks (h : inner.Forks c) : (Grammar.table inner).Forks c :=
  (expect_forks (by decide)).bind fun _ =>
    (loop_forks_of_forks (fieldStep_local h.toLocal) (fieldStep_forks h) []).bind fun _ =>
      (expectClosing_forks (by decide)).bind fun _ => .pure

/-! ## Calls and indexes -/

theorem arguments_refuses (hs : w.current.symbol ∈ Symbol.closers) (a : Arguments) (w' : Window) :
    Grammar.arguments inner w ≠ .ok (a, w') := by
  intro h
  rw [Grammar.arguments, symbol_bind] at h
  generalize w.current.symbol = s at hs h
  split at h
  · exact absurd hs (by decide)
  · exact absurd hs (by decide)
  · exact absurd hs (by decide)
  · cases h

theorem argumentList_forks (h : inner.Forks c) (opening : Token) :
    Parse.Forks (do
      let values ← if (← symbol) = .rightParen then pure [] else Grammar.expressionList inner
      let closing ← expectClosing .rightParen .leftParen opening.span.start.line
      return .list values (Span.between opening.span closing.span) : Parse Arguments) c := by
  have hrest : ∀ values : List Expression, Parse.Forks (do
      let closing ← expectClosing .rightParen .leftParen opening.span.start.line
      return Arguments.list values (Span.between opening.span closing.span)) c :=
    fun values => (expectClosing_forks (by decide)).bind fun _ => .pure
  refine .unless_bind (P := (· = .rightParen)) (expressionList_item h) (expressionList_forks h)
    (by decide) ?_ hrest
  rintro rfl
  decide

theorem arguments_forks (h : inner.Forks c) : (Grammar.arguments inner).Forks c := by
  refine .of_refuses (Local.arguments_local h.toLocal) (fun w => arguments_refuses)
    fun {k w v n} hfork => .symbol hfork ?_
  split
  · next hs =>
    refine .onSameLine hfork fun joined => ?_
    split
    · exact .take hfork (by simp [hs]) (argumentList_forks h)
    · exact .fail
  · exact ((table_forks h).bind fun _ => .pure).forksAt hfork
  · next hs => exact .take hfork (by simp [hs]) fun _ => .pure
  · exact .fail

/-- On the line of what is called, arguments are taken. -/
theorem arguments_beyond (h : inner.Forks c) (hw : w.Proper) (hjoined : w.Joined)
    (hs : w.current.symbol = .leftParen ∨ w.current.symbol = .string ∨
      w.current.symbol = .leftBrace) : (Grammar.arguments inner).Beyond 0 w := by
  refine LocalAt.symbol hw ?_
  split
  · next hs =>
    exact Beyond.onSameLine (LocalAt.take hw (by simp [hs]) le_rfl
      fun opening => (argumentList_forks h opening).toLocal) hw hjoined
  · next hs =>
    exact (LocalAt.thenLocal (expect_beyond hw hs (by decide)) hw le_rfl fun _ =>
      (loop_local (fieldStep_local h.toLocal) []).bind fun _ =>
        (expectClosing_local (by decide)).bind fun _ => .pure).thenLocal hw le_rfl fun _ => .pure
  · next hs => exact .take hw (by simp [hs]) le_rfl fun _ => .pure
  · next h₁ h₂ h₃ =>
    rcases hs with hs | hs | hs
    · exact absurd hs h₁
    · exact absurd hs h₃
    · exact absurd hs h₂

theorem primaryHead_item (h : inner.Forks c) : (Grammar.primaryHead inner).Item := by
  refine fun w hw => .symbol hw ?_
  split
  · exact (expectName_item w hw).bind hw fun _ => .pure
  · next hs =>
    exact .take hw hs (by decide) (by decide) fun _ => (expression_forks h).toLocal.bind
      fun _ => (expectClosing_local (by decide)).bind fun _ => .pure
  · exact .fail (by assumption)

theorem primaryHead_forks (h : inner.Forks c) : (Grammar.primaryHead inner).Forks c := by
  refine .of_item (primaryHead_item h) fun hfork => .symbol hfork ?_
  split
  · exact (expectName_forks.bind fun _ => .pure).forksAt hfork
  · next hs =>
    exact .take hfork (by simp [hs]) fun _ => (expression_forks h).bind fun _ =>
      (expectClosing_forks (by decide)).bind fun _ => .pure
  · exact .fail

/-- Whatever goes on with an expression on its line is taken. -/
theorem suffixStep_beyond (h : inner.Forks c) (p : Primary) (hw : w.Proper) (hjoined : w.Joined)
    (hs : w.current.symbol.beginsSuffix = true) : (Grammar.suffixStep inner p).Beyond 0 w := by
  have harguments : (w.current.symbol = .leftParen ∨ w.current.symbol = .string ∨
      w.current.symbol = .leftBrace) → (do
      let args ← Grammar.arguments inner
      return .inl (.call (.function p args (Span.between p.span args.span))) :
      Parse (Primary ⊕ Primary)).Beyond 0 w :=
    fun hs => LocalAt.thenLocal (arguments_beyond h hw hjoined hs) hw le_rfl fun _ => .pure
  refine LocalAt.symbol hw ?_
  split
  · next hs => exact .take hw (by simp [hs]) le_rfl fun _ => expectName_local.bind fun _ => .pure
  · next hs =>
    exact .take hw (by simp [hs]) le_rfl fun _ => (expression_forks h).toLocal.bind fun _ =>
      (expect_local (by decide)).bind fun _ => .pure
  · next hs =>
    exact .take hw (by simp [hs]) le_rfl fun _ => expectName_local.bind fun _ =>
      (arguments_forks h).toLocal.bind fun _ => .pure
  · next hs => exact harguments (.inl hs)
  · next hs => exact harguments (.inr (.inl hs))
  · next hs => exact harguments (.inr (.inr hs))
  · next h₁ h₂ h₃ h₄ h₅ h₆ =>
    rw [Symbol.beginsSuffix_eq_false h₁ h₂ h₃ h₄ h₅ h₆] at hs
    cases hs

theorem suffixStep_of_not (p : Primary) (hs : w.current.symbol.beginsSuffix = false) :
    Grammar.suffixStep inner p w = (pure (.inr p) : Parse (Primary ⊕ Primary)) w := by
  rw [Grammar.suffixStep, symbol_bind]
  generalize w.current.symbol = s at hs
  cases s <;> first | rfl | cases hs

theorem beginsSuffix_of_mem_closers {s : Symbol} (h : s ∈ Symbol.closers) :
    s.beginsSuffix = false := by
  revert s
  decide

theorem suffixStep_forks (h : inner.Forks c) (p : Primary) :
    (Grammar.suffixStep inner p).Forks c := by
  refine ⟨(suffixStep_local h.toLocal).toLocal p, @fun k w v n hfork => ?_⟩
  cases k with
  | zero =>
    cases hs : w.current.symbol.beginsSuffix with
    | true => exact .of_beyond hfork (suffixStep_beyond h p hfork.proper (hfork.joined rfl) hs)
    | false =>
      refine (ForksAt.pure hfork).congr hfork (suffixStep_of_not p hs) (suffixStep_of_not p ?_)
        fun u hu => suffixStep_of_not p ?_
      · rw [hfork.closer.symbol_current]
        exact beginsSuffix_of_mem_closers hfork.mem
      · rw [← hu.current, hfork.name.symbol_current]
        rfl
  | succ k =>
    have harguments : Parse.Forks (do
        let args ← Grammar.arguments inner
        return .inl (.call (.function p args (Span.between p.span args.span))) :
        Parse (Primary ⊕ Primary)) c := (arguments_forks h).bind fun _ => .pure
    refine .symbol hfork ?_
    split
    · next hs => exact .take hfork (by simp [hs]) fun _ => expectName_forks.bind fun _ => .pure
    · next hs =>
      exact .take hfork (by simp [hs]) fun _ => (expression_forks h).bind fun _ =>
        (expect_forks (by decide)).bind fun _ => .pure
    · next hs =>
      exact .take hfork (by simp [hs]) fun _ => expectName_forks.bind fun _ =>
        (arguments_forks h).bind fun _ => .pure
    · exact harguments.forksAt hfork
    · exact harguments.forksAt hfork
    · exact harguments.forksAt hfork
    · exact .pure hfork

theorem primary_item (h : inner.Forks c) : (Grammar.primary inner).Item :=
  (primaryHead_item h).bind (loop_local (suffixStep_local h.toLocal))

theorem primary_forks (h : inner.Forks c) : (Grammar.primary inner).Forks c :=
  (primaryHead_forks h).bind
    (loop_forks_of_forks (suffixStep_local h.toLocal) (suffixStep_forks h))

/-! ## Operands -/

theorem not_mem_closers_of_unaryOperator {s : Symbol} {op : UnaryOperator}
    (h : UnaryOperator.ofSymbol? s = some op) : s ∉ Symbol.closers := by
  rw [← UnaryOperator.symbol_of_ofSymbol? h]
  cases op <;> decide

theorem binaryOperator_of_mem_closers {s : Symbol} (h : s ∈ Symbol.closers) :
    BinaryOperator.ofSymbol? s = none := by
  revert s
  decide

theorem table_beyond (h : inner.Forks c) (hw : w.Proper) (hs : w.current.symbol = .leftBrace) :
    (Grammar.table inner).Beyond 0 w :=
  LocalAt.thenLocal (expect_beyond hw hs (by decide)) hw le_rfl fun _ =>
    (loop_local (fieldStep_local h.toLocal) []).bind fun _ =>
      (expectClosing_local (by decide)).bind fun _ => .pure

theorem simpleOperand_item (h : inner.Forks c) : (Grammar.simpleOperand inner).Item := by
  refine fun w hw => .current hw ?_
  split
  · next op hop =>
    exact .take hw rfl (not_mem_closers_of_unaryOperator hop)
      (UnaryOperator.ne_eof_of_ofSymbol? hop) fun _ => (h.operand _).toLocal.bind fun _ => .pure
  · split
    · next hs => exact .take hw hs (by decide) (by decide) fun _ => .pure
    · next hs => exact .take hw hs (by decide) (by decide) fun _ => .pure
    · next hs => exact .take hw hs (by decide) (by decide) fun _ => .pure
    · next hs => exact .take hw hs (by decide) (by decide) fun _ => .pure
    · next hs =>
      refine .current hw ?_
      rw [content_bind]
      split
      · exact .take hw hs (by decide) (by decide) fun _ => .pure
      · exact .fail (by simp [hs])
    · next hs => exact .take hw hs (by decide) (by decide) fun _ => .pure
    · next hs =>
      exact .take hw hs (by decide) (by decide) fun _ =>
        (functionBody_forks h _).toLocal.bind fun _ => .pure
    · next hs =>
      exact .of_takes (by rw [hs]; decide) (LocalAt.thenLocal (table_beyond h hw hs) hw le_rfl
        fun _ => .pure)
    · exact (primary_item h w hw).bind hw fun _ => .pure
    · exact (primary_item h w hw).bind hw fun _ => .pure
    · exact .fail (by assumption)

theorem simpleOperand_forks (h : inner.Forks c) : (Grammar.simpleOperand inner).Forks c := by
  refine .of_item (simpleOperand_item h) fun {k w v n} hfork => .current hfork ?_
  split
  · next op hop =>
    exact .take hfork (UnaryOperator.ne_eof_of_ofSymbol? hop) fun _ => (h.operand _).bind
      fun _ => .pure
  · split
    · next hs => exact .take hfork (by simp [hs]) fun _ => .pure
    · next hs => exact .take hfork (by simp [hs]) fun _ => .pure
    · next hs => exact .take hfork (by simp [hs]) fun _ => .pure
    · next hs => exact .take hfork (by simp [hs]) fun _ => .pure
    · next hs =>
      refine .current hfork ?_
      rw [content_bind]
      split
      · exact .take hfork (by simp [hs]) fun _ => .pure
      · exact .fail
    · next hs => exact .take hfork (by simp [hs]) fun _ => .pure
    · next hs =>
      exact .take hfork (by simp [hs]) fun _ => (functionBody_forks h _).bind fun _ => .pure
    · exact ((table_forks h).bind fun _ => .pure).forksAt hfork
    · exact ((primary_forks h).bind fun _ => .pure).forksAt hfork
    · exact ((primary_forks h).bind fun _ => .pure).forksAt hfork
    · exact .fail

theorem operatorStep_of_none {limit : Nat} {left : Expression}
    (h : BinaryOperator.ofSymbol? w.current.symbol = none) :
    Grammar.operatorStep inner limit left w = .ok (.inr left, w) := by
  rw [Grammar.operatorStep, symbol_bind, h]
  rfl

theorem operatorStep_of_le {limit : Nat} {left : Expression} {op : BinaryOperator}
    (h : BinaryOperator.ofSymbol? w.current.symbol = some op) (hpower : op.leftPower ≤ limit) :
    Grammar.operatorStep inner limit left w = .ok (.inr left, w) := by
  rw [Grammar.operatorStep, symbol_bind, h]
  dsimp only
  rw [if_pos hpower]
  rfl

theorem operatorStep_beyond (h : inner.Forks c) {limit : Nat} {left : Expression}
    {op : BinaryOperator} (hw : w.Proper)
    (hop : BinaryOperator.ofSymbol? w.current.symbol = some op) (hpower : ¬op.leftPower ≤ limit) :
    (Grammar.operatorStep inner limit left).Beyond 0 w := by
  refine LocalAt.symbol hw ?_
  rw [hop]
  dsimp only
  rw [if_neg hpower]
  exact .take hw (BinaryOperator.ne_eof_of_ofSymbol? hop) le_rfl fun _ =>
    (h.operand _).toLocal.bind fun _ => .pure

theorem operatorStep_forks (h : inner.Forks c) (limit : Nat) (left : Expression) :
    (Grammar.operatorStep inner limit left).Forks c := by
  refine ⟨(operatorStep_local h.toLocal limit).toLocal left, @fun k w v n hfork => ?_⟩
  cases k with
  | zero =>
    have hstops : Grammar.operatorStep inner limit left w = .ok (.inr left, w) →
        (Grammar.operatorStep inner limit left).ForksAt (fun _ => False) c 0 w v n := by
      intro hw
      refine (ForksAt.pure hfork).congr hfork hw (operatorStep_of_none ?_) fun u hu =>
        operatorStep_of_none ?_
      · rw [hfork.closer.symbol_current]
        exact binaryOperator_of_mem_closers hfork.mem
      · rw [← hu.current, hfork.name.symbol_current]
        rfl
    cases hop : BinaryOperator.ofSymbol? w.current.symbol with
    | none => exact hstops (operatorStep_of_none hop)
    | some op =>
      by_cases hpower : op.leftPower ≤ limit
      · exact hstops (operatorStep_of_le hop hpower)
      · exact .of_beyond hfork (operatorStep_beyond h hfork.proper hop hpower)
  | succ k =>
    refine .symbol hfork ?_
    split
    · next op hop =>
      split
      · exact .pure hfork
      · exact .take hfork (BinaryOperator.ne_eof_of_ofSymbol? hop) fun _ =>
          (h.operand _).bind fun _ => .pure
    · exact .pure hfork

theorem operand_item (h : inner.Forks c) (limit : Nat) : (Grammar.operand inner limit).Item :=
  (simpleOperand_item h).bind (loop_local (operatorStep_local h.toLocal limit))

theorem operand_forks (h : inner.Forks c) (limit : Nat) : (Grammar.operand inner limit).Forks c :=
  (simpleOperand_forks h).bind
    (loop_forks_of_forks (operatorStep_local h.toLocal limit) (operatorStep_forks h limit))

/-! ## Loops and conditions -/

variable {Q : Statement → Prop}

theorem clause_forks (h : inner.Forks c) (keyword : Span) :
    (Grammar.clause inner keyword).Forks c :=
  (expression_forks h).bind fun _ => (expect_forks (by decide)).bind fun _ =>
    (h.block _ (by decide)).bind fun _ => .pure

theorem conditional_forksAt (h : inner.Forks c) (hfork : Fork c k w v n)
    (hs : w.current.symbol = .kwIf) : (Grammar.conditional inner).ForksAt Q c k w v n := by
  refine .take hfork (by simp [hs]) fun opening => (clause_forks h _).bind fun first => ?_
  refine (separated_forks (by decide) (by decide) (by decide) (fun _ => clause_forks h _)
    first).bind fun clauses => ?_
  have hrest : ∀ otherwise : Option Block, Parse.Forks (do
      let closing ← expectClosing .kwEnd .kwIf opening.span.start.line
      return Statement.conditional clauses otherwise (Span.between opening.span closing.span)) c :=
    fun otherwise => (expectClosing_forks (by decide)).bind fun _ => .pure
  refine (accept_forks (by decide) (by decide) (by decide)).bind fun t => ?_
  cases t with
  | some t => exact ((h.block _ (by decide)).map some).bind hrest
  | none => exact Parse.Forks.pure.bind hrest

theorem forBody_forks (h : inner.Forks c) (line : Nat) : (Grammar.forBody inner line).Forks c :=
  (expect_forks (by decide)).bind fun _ => (h.block _ (by decide)).bind fun _ =>
    (expectClosing_forks (by decide)).bind fun _ => .pure

theorem numericFor_forks (h : inner.Forks c) (opening : Span) :
    (Grammar.numericFor inner opening).Forks c := by
  refine expectName_forks.bind fun counter => ?_
  refine (expect_forks (by decide)).bind fun _ => (expression_forks h).bind fun start => ?_
  refine (expect_forks (by decide)).bind fun _ => (expression_forks h).bind fun limit => ?_
  have hrest : ∀ step : Option Expression,
      Parse.Forks (Grammar.forBody inner opening.start.line >>= fun r =>
        pure (Statement.numericFor counter start limit step r.1
          (Span.between opening r.2.span))) c :=
    fun step => (forBody_forks h _).bind fun _ => .pure
  refine (accept_forks (by decide) (by decide) (by decide)).bind fun t => ?_
  cases t with
  | some t => exact ((expression_forks h).map some).bind hrest
  | none => exact Parse.Forks.pure.bind hrest

theorem genericFor_forks (h : inner.Forks c) (opening : Span) :
    (Grammar.genericFor inner opening).Forks c :=
  (commaList_forks expectName_forks).bind fun _ => (expect_forks (by decide)).bind fun _ =>
    (expressionList_forks h).bind fun _ => (forBody_forks h _).bind fun _ => .pure

/-- What comes behind `for`. -/
def forLoopRest (inner : Level) (opening : Token) : Parse Statement := do
  if (← symbol) = .name then
    match ← followingSymbol with
    | .assign => Grammar.numericFor inner opening.span
    | .comma | .kwIn => Grammar.genericFor inner opening.span
    | _ =>
      let _ ← consume
      fail (.expectedEither Symbol.assign.spelling Symbol.kwIn.spelling)
  else fail (.expected Symbol.name.spelling)

theorem forLoop_eq (inner : Level) : Grammar.forLoop inner = consume >>= forLoopRest inner := rfl

theorem forLoopRest_local (h : inner.Forks c) (opening : Token) :
    (forLoopRest inner opening).Local := by
  intro w hw
  refine .symbol hw ?_
  split
  · next hs =>
    refine (LocalAt.followingSymbol (n := fun _ => 1) hw (fun _ => le_rfl) ?_).zero
    split
    · exact Local.numericFor_localAt h.toLocal _ hw hs
    · exact Local.genericFor_localAt h.toLocal _ hw hs
    · exact Local.genericFor_localAt h.toLocal _ hw hs
    · exact .take hw (by simp [hs]) le_rfl fun _ => .fail
  · exact .fail

theorem forLoopRest_refuses {opening : Token} (hs : w.current.symbol ∈ Symbol.closers)
    (a : Statement) (w' : Window) : forLoopRest inner opening w ≠ .ok (a, w') := by
  intro h
  rw [forLoopRest, symbol_bind, if_neg] at h
  · cases h
  · intro hname
    rw [hname] at hs
    exact absurd hs (by decide)

/-- Behind its first name a `for` goes on with none of the closers. -/
theorem forLoopRest_forks (h : inner.Forks c) (opening : Token) :
    (forLoopRest inner opening).Forks c := by
  refine .of_refuses (forLoopRest_local h opening) (fun w => forLoopRest_refuses)
    fun {k w v n} hfork => .symbol hfork ?_
  split
  · next hs =>
    cases k with
    | zero =>
      refine .of_refuses fun a v' hv => ?_
      have hmem : v.following.symbol ∈ Symbol.closers := by
        rw [hfork.closer.symbol_following]
        exact hfork.mem
      rw [followingSymbol_bind] at hv
      generalize v.following.symbol = s at hmem hv
      split at hv
      · exact absurd hmem (by decide)
      · exact absurd hmem (by decide)
      · exact absurd hmem (by decide)
      · obtain ⟨t, v'', -, hfail⟩ := bind_eq_ok_iff.1 hv
        cases hfail
    | succ k =>
      refine .followingSymbol hfork ?_
      split
      · exact (numericFor_forks h _).forksAt hfork
      · exact (genericFor_forks h _).forksAt hfork
      · exact (genericFor_forks h _).forksAt hfork
      · exact .take hfork (by simp [hs]) fun _ => .fail
  · exact .fail

theorem forLoop_forksAt (h : inner.Forks c) (hfork : Fork c k w v n)
    (hs : w.current.symbol = .kwFor) : (Grammar.forLoop inner).ForksAt Q c k w v n := by
  rw [forLoop_eq]
  exact .take hfork (by simp [hs]) (forLoopRest_forks h)

/-! ## Functions and local variables -/

theorem functionName_forks : (Grammar.functionName : Parse _).Forks c := by
  refine expectName_forks.bind fun first => ?_
  refine (separated_forks (by decide) (by decide) (by decide) (fun _ => expectName_forks)
    first).bind fun path => ?_
  refine (accept_forks (by decide) (by decide) (by decide)).bind fun t => ?_
  cases t with
  | some t => exact expectName_forks.bind fun _ => .pure
  | none => exact .pure

theorem localAssign_forks (h : inner.Forks c) (opening : Span) :
    (Grammar.localAssign inner opening).Forks c := by
  refine (commaList_forks expectName_forks).bind fun names => ?_
  refine (accept_forks (by decide) (by decide) (by decide)).bind fun t => ?_
  cases t with
  | some t => exact (expressionList_forks h).bind fun _ => .pure
  | none => exact Parse.Forks.pure.bind fun _ => .pure

theorem localStatement_forksAt (h : inner.Forks c) (hfork : Fork c k w v n)
    (hs : w.current.symbol = .kwLocal) : (Grammar.localStatement inner).ForksAt Q c k w v n := by
  refine .take hfork (by simp [hs]) fun opening => ?_
  refine (accept_forks (by decide) (by decide) (by decide)).bind fun t => ?_
  cases t with
  | some t => exact expectName_forks.bind fun _ => (functionBody_forks h _).bind fun _ => .pure
  | none => exact localAssign_forks h _

/-! ## Jumps -/

/-- Behind `return` there may be a name wherever there may be an end. -/
theorem returnValues_forks (h : inner.Forks c) (keyword : Token) :
    Parse.Forks (do
      let values ← if (← symbol) ∈ Grammar.endsValues then pure [] else Grammar.expressionList inner
      let _ ← accept .semicolon
      let last := (values.getLast?.map (·.span)).getD keyword.span
      return .returnValues values (Span.between keyword.span last) : Parse Statement) c := by
  refine .unless_bind (P := (· ∈ Grammar.endsValues)) (expressionList_item h)
    (expressionList_forks h) (by decide) (fun _ _ => by decide) fun values => ?_
  exact (accept_forks (by decide) (by decide) (by decide)).bind fun _ => .pure

theorem breakEnd_forks (keyword : Token) :
    Parse.Forks (do
      let _ ← accept .semicolon
      return .breakLoop keyword.span : Parse Statement) c :=
  (accept_forks (by decide) (by decide) (by decide)).bind fun _ => .pure

/-! ## Assignments and calls -/

theorem target_forks (p : Primary) : (Grammar.target p : Parse _).Forks c := by
  unfold Grammar.target
  split
  · exact .pure
  · exact .fail

theorem assign_forks (h : inner.Forks c) (first : Variable) :
    (Grammar.assign inner first).Forks c := by
  have hnext : (Grammar.nextTarget inner).Forks c := (primary_forks h).bind target_forks
  exact (separated_forks (by decide) (by decide) (by decide) (fun _ => hnext) first).bind fun _ =>
    (expect_forks (by decide)).bind fun _ => (expressionList_forks h).bind fun _ => .pure

/-- What comes behind the first primary expression of a statement. -/
def assignOrCallRest (inner : Level) (p : Primary) : Parse Statement := do
  match ← symbol with
  | .assign | .comma => Grammar.assign inner (← Grammar.target p)
  | _ =>
    match p with
    | .call c => return .call c
    | .var _ => fail (.expected Symbol.assign.spelling)
    | .parenthesized .. => fail .notACall

theorem assignOrCallRest_local (h : inner.Forks c) (p : Primary) :
    (assignOrCallRest inner p).Local := by
  have hassign : (Grammar.target p >>= Grammar.assign inner).Local :=
    ((target_forks p).bind (assign_forks h)).toLocal
  refine .symbol fun s => ?_
  split
  · exact hassign
  · exact hassign
  · split
    · exact .pure
    · exact .fail
    · exact .fail

theorem not_assigns_of_mem_closers {s : Symbol} (h : s ∈ Symbol.closers) :
    ¬(s = .assign ∨ s = .comma) := by
  revert s
  decide

theorem assignOrCallRest_call {call : Call}
    (hs : ¬(w.current.symbol = .assign ∨ w.current.symbol = .comma)) :
    assignOrCallRest inner (.call call) w = .ok (.call call, w) := by
  unfold assignOrCallRest
  rw [symbol_bind]
  generalize w.current.symbol = s at hs
  split
  · exact absurd (.inl rfl) hs
  · exact absurd (.inr rfl) hs
  · rfl

theorem assignOrCallRest_call_refuses {call : Call}
    (hs : w.current.symbol = .assign ∨ w.current.symbol = .comma) (a : Statement) (w' : Window) :
    assignOrCallRest inner (.call call) w ≠ .ok (a, w') := by
  unfold assignOrCallRest
  rw [symbol_bind]
  rcases hs with hs | hs
  · rw [hs]
    exact nofun
  · rw [hs]
    exact nofun

theorem assignOrCallRest_refuses {p : Primary} (hp : ∀ call, p ≠ .call call)
    (hs : w.current.symbol ∈ Symbol.closers) (a : Statement) (w' : Window) :
    assignOrCallRest inner p w ≠ .ok (a, w') := by
  unfold assignOrCallRest
  rw [symbol_bind]
  generalize w.current.symbol = s at hs
  split
  · exact absurd hs (by decide)
  · exact absurd hs (by decide)
  · cases p with
    | call call => exact absurd rfl (hp call)
    | var x => exact nofun
    | parenthesized e span => exact nofun

/-- A call is a statement, whatever comes behind it. -/
theorem assignOrCallRest_forksAt_call (call : Call) (hfork : Fork c 0 w v n) :
    (assignOrCallRest inner (.call call)).ForksAt (fun _ => True) c 0 w v n := by
  have hv : assignOrCallRest inner (.call call) v = .ok (.call call, v) := by
    refine assignOrCallRest_call (not_assigns_of_mem_closers ?_)
    rw [hfork.closer.symbol_current]
    exact hfork.mem
  have hn : assignOrCallRest inner (.call call) n = .ok (.call call, n) :=
    assignOrCallRest_call (by rw [hfork.name.symbol_current]; decide)
  intro _ _ _
  by_cases hs : w.current.symbol = .assign ∨ w.current.symbol = .comma
  · refine ⟨fun hok => absurd hok (assignOrCallRest_call_refuses hs _ _), fun _ _ _ => ?_⟩
    refine .inr ⟨fun heof => ?_, .inr ⟨_, n, trivial, rfl, hn⟩⟩
    rw [Window.token_zero] at heof
    rw [heof] at hs
    exact absurd hs (by decide)
  · have hw := @assignOrCallRest_call inner w call hs
    refine ⟨fun hok hadvance => ?_, fun he => by cases hw.symm.trans he⟩
    cases hw.symm.trans hok
    exact ⟨⟨v, rfl, hv⟩, .inr ⟨n, rfl, hn⟩⟩

theorem assignOrCallRest_forksAt (h : inner.Forks c) (p : Primary) (hfork : Fork c k w v n) :
    (assignOrCallRest inner p).ForksAt (fun _ => True) c k w v n := by
  cases k with
  | zero =>
    by_cases hp : ∀ call, p ≠ .call call
    · refine .of_refuses (assignOrCallRest_refuses hp ?_)
      rw [hfork.closer.symbol_current]
      exact hfork.mem
    · obtain ⟨call, hcall⟩ := not_forall.1 hp
      obtain rfl := not_not.1 hcall
      exact assignOrCallRest_forksAt_call call hfork
  | succ k =>
    refine .symbol hfork ?_
    have hassign : (Grammar.target p >>= Grammar.assign inner).Forks c :=
      (target_forks p).bind (assign_forks h)
    split
    · exact (hassign.forksAt hfork).weaken
    · exact (hassign.forksAt hfork).weaken
    · split
      · exact .pure hfork
      · exact .fail
      · exact .fail

theorem assignOrCall_forksAt (h : inner.Forks c) (hfork : Fork c k w v n) :
    (Grammar.assignOrCall inner).ForksAt (fun _ => True) c k w v n :=
  .bind hfork (fun hu => (primary_forks h).toLocal _ (hfork.proper_of_eq hu))
    (fun _ hu _ => assignOrCallRest_local h _ _ hu) ((primary_forks h).forksAt hfork)
    (fun _ _ => False.elim) fun _ _ _ hfork' => assignOrCallRest_forksAt h _ hfork'

theorem assignOrCall_item (h : inner.Forks c) : (Grammar.assignOrCall inner).Item :=
  (primary_item h).bind (assignOrCallRest_local h)

/-! ## Blocks -/

theorem statement_of_primary (hs : w.current.symbol = .name ∨ w.current.symbol ∈ Symbol.closers) :
    Grammar.statement inner w = Grammar.assignOrCall inner w := by
  rw [Grammar.statement, symbol_bind]
  generalize w.current.symbol = s at hs
  rcases hs with rfl | hs
  · rfl
  · rw [Symbol.closers] at hs
    split
    all_goals first
      | rfl
      | exact absurd hs (by decide)

theorem statement_item (h : inner.Forks c) : (Grammar.statement inner).Item := by
  refine fun w hw => ⟨fun hs a w' ha => ?_, Local.statement_localAt h.toLocal hw, fun hs => ?_⟩
  · rw [statement_of_primary (.inr hs)] at ha
    exact (assignOrCall_item h w hw).refuses hs a w' ha
  · refine .symbol hw ?_
    rw [hs]
    exact (assignOrCall_item h w hw).name hs

theorem statement_forksAt (h : inner.Forks c) (hfork : Fork c k w v n) :
    (Grammar.statement inner).ForksAt (fun _ => True) c k w v n := by
  cases k with
  | zero =>
    refine .of_refuses ((statement_item h v hfork.closer.proper).refuses ?_)
    rw [hfork.closer.symbol_current]
    exact hfork.mem
  | succ k =>
    refine .symbol hfork ?_
    split
    · next hs => exact conditional_forksAt h hfork hs
    · next hs =>
      exact .take hfork (by simp [hs]) fun _ => (expression_forks h).bind fun _ =>
        (expect_forks (by decide)).bind fun _ => (h.block _ (by decide)).bind fun _ =>
          (expectClosing_forks (by decide)).bind fun _ => .pure
    · next hs =>
      exact .take hfork (by simp [hs]) fun _ => (h.block _ (by decide)).bind fun _ =>
        (expectClosing_forks (by decide)).bind fun _ => .pure
    · next hs => exact forLoop_forksAt h hfork hs
    · next hs =>
      exact .take hfork (by simp [hs]) fun _ => (h.block _ (by decide)).bind fun _ =>
        (expectClosing_forks (by decide)).bind fun _ => (expression_forks h).bind fun _ => .pure
    · next hs =>
      exact .take hfork (by simp [hs]) fun _ => functionName_forks.bind fun _ =>
        (functionBody_forks h _).bind fun _ => .pure
    · next hs => exact localStatement_forksAt h hfork hs
    · next hs =>
      exact .take hfork (by simp [hs]) fun _ => expectName_forks.bind fun _ =>
        (expect_forks (by decide)).bind fun _ => .pure
    · next hs => exact .take hfork (by simp [hs]) fun _ => expectName_forks.bind fun _ => .pure
    · exact assignOrCall_forksAt h hfork

/-- What comes in a block where this does not end. -/
def blockItem (inner : Level) (statements : List Statement) :
    Parse (List Statement ⊕ List Statement) := do
  match ← symbol with
  | .semicolon =>
    let _ ← consume
    return .inl statements
  | .kwReturn => return .inr ((← Grammar.returnStatement inner) :: statements).reverse
  | .kwBreak => return .inr ((← Grammar.breakStatement) :: statements).reverse
  | _ => return .inl ((← Grammar.statement inner) :: statements)

theorem statementStep_apply (terminators : List Symbol) (statements : List Statement)
    (w : Window) :
    Grammar.statementStep inner terminators statements w =
      if w.current.symbol = .eof ∨ w.current.symbol ∈ terminators then
        .ok (.inr statements.reverse, w)
      else blockItem inner statements w := by
  rw [Grammar.statementStep, symbol_bind]
  split <;> rfl

theorem blockItem_item (h : inner.Forks c) (statements : List Statement) :
    (blockItem inner statements).Item := by
  refine fun w hw => .symbol hw ?_
  split
  · next hs => exact .take hw hs (by decide) (by decide) fun _ => .pure
  · next hs =>
    refine .bind (.take hw hs (by decide) (by decide) fun _ => ?_) hw fun _ => .pure
    exact (returnValues_forks h _).toLocal
  · next hs =>
    refine .bind (.take hw hs (by decide) (by decide) fun _ => ?_) hw fun _ => .pure
    exact (@breakEnd_forks .kwEnd _).toLocal
  · exact (statement_item h w hw).bind hw fun _ => .pure

/-- Where a statement stops at a name, the block goes on with it. -/
theorem blockItem_forksAt (h : inner.Forks c) (statements : List Statement)
    (hfork : Fork c (k + 1) w v n) :
    (blockItem inner statements).ForksAt (fun r => r.isLeft = true) c (k + 1) w v n := by
  refine .symbol hfork ?_
  split
  · next hs => exact .take hfork (by simp [hs]) fun _ => .pure
  · next hs =>
    refine .then hfork (fun hu => ?_) (.take hfork (by simp [hs]) (returnValues_forks h))
      fun _ => .pure
    exact (Local.returnStatement_local h.toLocal (hfork.proper_of_eq hu)
      (by rw [hfork.current_of_eq hu, hs])).zero
  · next hs =>
    refine .then hfork (fun hu => ?_) (.take hfork (by simp [hs]) breakEnd_forks) fun _ => .pure
    refine (LocalAt.take (m := 0) (hfork.proper_of_eq hu) ?_ (Nat.zero_le 1) fun t =>
      (@breakEnd_forks c t).toLocal).zero
    simp [hfork.current_of_eq hu, hs]
  · exact .bind hfork (fun hu => (Local.statement_localAt h.toLocal (hfork.proper_of_eq hu)).zero)
      (fun _ _ _ => .pure rfl) (statement_forksAt h hfork)
      (fun s n' _ _ _ => .inr ⟨.inl (s :: statements), rfl, rfl⟩) fun _ _ _ hfork' => .pure hfork'

theorem statementStep_forksAt (h : inner.Forks c) {terminators : List Symbol}
    (hname : .name ∉ terminators) (statements : List Statement) (hfork : Fork c k w v n) :
    (Grammar.statementStep inner terminators statements).ForksAt (fun r => r.isLeft = true) c k
      w v n := by
  refine .unless (P := fun s => s = .eof ∨ s ∈ terminators) hfork (blockItem_item h statements)
    (statementStep_apply terminators statements) ?_ (fun _ _ => .inl rfl) fun l hl => ?_
  · rintro (heq | hmem)
    · cases heq
    · exact hname hmem
  · subst hl
    exact blockItem_forksAt h statements hfork

theorem statements_forks (h : inner.Forks c) {terminators : List Symbol}
    (hname : .name ∉ terminators) (statements : List Statement) :
    (loop (Grammar.statementStep inner terminators) statements).Forks c := by
  refine loop_forks (R := fun r => r.isLeft = true) (statementStep_local h.toLocal terminators)
    (fun r n hr hn hs => ?_) (fun ss => statementStep_forksAt h hname ss) statements
  cases r with
  | inr b => cases hr
  | inl ss =>
    have hstep : (Grammar.statementStep inner terminators ss).LocalAt n 1 fun _ => 1 := by
      refine ((blockItem_item h ss n hn).name hs).congr hn fun u hu => ?_
      rw [statementStep_apply, if_neg]
      rw [← hu.current, hs]
      rintro (heq | hmem)
      · cases heq
      · exact hname hmem
    refine (hstep.thenLocal hn le_rfl fun r => ?_).congr hn fun u hu =>
      loop_eq (statementStep_local h.toLocal terminators) hu.proper
    cases r with
    | inl ss => exact loop_local (statementStep_local h.toLocal terminators) ss
    | inr b => exact .pure

theorem block_forks (h : inner.Forks c) {terminators : List Symbol}
    (hname : .name ∉ terminators) : (Grammar.block inner terminators).Forks c := by
  refine ⟨Local.block_local h.toLocal terminators, fun {k w v n} hfork => ?_⟩
  have hrest : (loop (Grammar.statementStep inner terminators) [] >>= fun statements =>
      pure (⟨statements, Grammar.blockSpan w.current.span.start statements⟩ : Block)).Forks c :=
    (statements_forks h hname []).bind fun _ => .pure
  have hrun : ∀ {u : Window}, u.current.span.start = w.current.span.start →
      Grammar.block inner terminators u =
        (loop (Grammar.statementStep inner terminators) [] >>= fun statements =>
          pure (⟨statements, Grammar.blockSpan w.current.span.start statements⟩ : Block)) u := by
    intro u hu
    rw [← hu]
    rfl
  refine (hrest.forksAt hfork).congr hfork (hrun rfl) (hrun hfork.closer.start_current) fun u hu =>
    hrun ?_
  rw [← hu.current]
  exact hfork.name.start_current

/-! ## Levels -/

theorem forks_ofDepth (depth : Nat) : (Level.ofDepth depth).Forks c := by
  induction depth with
  | zero =>
    refine ⟨Local.local_ofDepth 0, fun _ _ => .fail, fun _ => .fail, fun _ _ _ => ?_⟩
    exact ⟨fun _ => nofun, .ungrammatical fun _ => rfl, fun _ => .ungrammatical fun _ => rfl⟩
  | succ depth ih =>
    exact ⟨Local.local_ofDepth _, fun _ hname => block_forks ih hname, operand_forks ih,
      operand_item ih⟩

theorem chunk_forks (depth : Nat) : (Grammar.chunk (Level.ofDepth depth)).Forks c := by
  refine ((forks_ofDepth depth).block [] List.not_mem_nil).bind fun b => ?_
  refine .of_refuses (.symbol fun s => ?_) (fun w hs a w' ha => ?_) fun hfork => .symbol hfork ?_
  · split
    · exact .pure
    · exact .fail
  · rw [symbol_bind, if_neg] at ha
    · cases ha
    · intro heof
      rw [heof] at hs
      exact absurd hs (by decide)
  · split
    · exact .pure hfork
    · exact .fail

end Forking

end LuaSource
