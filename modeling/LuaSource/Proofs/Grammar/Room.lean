-- SUMMARY: With more levels of nesting than tokens, no parse ends for want of levels.
import LuaSource.Proofs.Grammar.Depth
import LuaSource.Proofs.Grammar.Locality
import LuaSource.Proofs.Grammar.Rules

/-!
# Room for nesting

Before a block or an operand is entered, a token is taken. So a level with more levels below it
than there are tokens ahead is as good as one without any limit.
-/

namespace LuaSource

namespace Parse

open Parsing

variable {α β : Type} {p q : Parse α} {f : α → Parse β} {w : Window} {d : Nat} {n : α → Nat}

/-- A parser takes `n a` tokens at least for a result `a`, and ends for want of levels only where
`d` tokens are ahead. -/
structure RoomAt (p : Parse α) (d : Nat) (w : Window) (n : α → Nat) : Prop where
  ok : ∀ {a w'}, p w = .ok (a, w') → w'.Proper ∧ w'.ahead.length + n a ≤ w.ahead.length
  deep : ∀ {e}, p w = .error e → e.cause.isTooDeep = true → d ≤ w.ahead.length

/-- A parser that takes `c` tokens at least wherever it is, and has room for `d`. -/
def Room (p : Parse α) (d : Nat) (c : Nat := 0) : Prop := ∀ w, w.Proper → p.RoomAt d w fun _ => c

/-! ## Rules -/

theorem RoomAt.mono {d' : Nat} {n' : α → Nat} (h : p.RoomAt d w n) (hd : d' ≤ d)
    (hn : ∀ a, n' a ≤ n a) : p.RoomAt d' w n' where
  ok hok := by
    obtain ⟨hproper, hlength⟩ := h.ok hok
    exact ⟨hproper, Nat.le_trans (Nat.add_le_add_left (hn _) _) hlength⟩
  deep herror hdeep := Nat.le_trans hd (h.deep herror hdeep)

theorem RoomAt.pure {a : α} (hw : w.Proper) (hn : n a = 0) :
    (Pure.pure a : Parse α).RoomAt d w n where
  ok h := by
    cases h
    exact ⟨hw, by rw [hn]; exact Nat.le_refl _⟩
  deep h := by cases h

theorem RoomAt.fail {fault : String → ParseFault} (h : ∀ near, (fault near).isTooDeep = false) :
    (Parsing.fail fault : Parse α).RoomAt d w n where
  ok h := by cases h
  deep herror hdeep := by
    cases herror
    rw [h] at hdeep
    cases hdeep

/-- Behind the tokens that the first parser takes, room is needed for so many fewer. -/
theorem RoomAt.bind {n' : β → Nat} (hp : p.RoomAt d w n)
    (hf : ∀ a w', w'.Proper → p w = .ok (a, w') →
      (f a).RoomAt (d - n a) w' fun b => n' b - n a) :
    (p >>= f).RoomAt d w n' where
  ok hok := by
    obtain ⟨a, w', h₁, h₂⟩ := bind_eq_ok_iff.1 hok
    obtain ⟨hproper, hlength⟩ := hp.ok h₁
    obtain ⟨hproper', hlength'⟩ := (hf a w' hproper h₁).ok h₂
    exact ⟨hproper', by omega⟩
  deep herror hdeep := by
    rcases bind_eq_error_iff.1 herror with h₁ | ⟨a, w', h₁, h₂⟩
    · exact hp.deep h₁ hdeep
    · obtain ⟨hproper, hlength⟩ := hp.ok h₁
      have hle := (hf a w' hproper h₁).deep h₂ hdeep
      omega

theorem RoomAt.current {f : Token → Parse α} (h : (f w.current).RoomAt d w n) :
    (current >>= f).RoomAt d w n := ⟨h.ok, h.deep⟩

theorem RoomAt.symbol {f : Symbol → Parse α} (h : (f w.current.symbol).RoomAt d w n) :
    (symbol >>= f).RoomAt d w n := ⟨h.ok, h.deep⟩

theorem RoomAt.followingSymbol {f : Symbol → Parse α}
    (h : (f w.following.symbol).RoomAt d w n) : (followingSymbol >>= f).RoomAt d w n :=
  ⟨h.ok, h.deep⟩

theorem RoomAt.onSameLine {f : Bool → Parse α} (h : ∀ b, (f b).RoomAt d w n) :
    (onSameLine >>= f).RoomAt d w n := ⟨(h _).ok, (h _).deep⟩

theorem Room.mono {c d' c' : Nat} (h : p.Room d c) (hd : d' ≤ d) (hc : c' ≤ c) : p.Room d' c' :=
  fun w hw => (h w hw).mono hd fun _ => hc

theorem Room.zero {c : Nat} (h : p.Room d c) : p.Room d := h.mono (Nat.le_refl d) (Nat.zero_le c)

theorem Room.pure {a : α} : (Pure.pure a : Parse α).Room d := fun _ hw => .pure hw rfl

theorem Room.fail {c : Nat} {fault : String → ParseFault}
    (h : ∀ near, (fault near).isTooDeep = false) : (Parsing.fail fault : Parse α).Room d c :=
  fun _ _ => .fail h

theorem Room.bind {c : Nat} (hp : p.Room d c) (hf : ∀ a, (f a).Room (d - c)) :
    (p >>= f).Room d c := by
  intro w hw
  refine (hp w hw).bind fun a w' hw' _ => (hf a w' hw').mono (Nat.le_refl _) fun _ => ?_
  exact Nat.le_of_eq (Nat.sub_self c)

theorem Room.map {c : Nat} (hp : p.Room d c) (g : α → β) : (g <$> p).Room d c := by
  rw [map_eq_pure_bind]
  exact hp.bind fun _ => .pure

theorem Room.current {c : Nat} {f : Token → Parse α} (hf : ∀ t, (f t).Room d c) :
    (Parsing.current >>= f).Room d c := fun w hw => .current (hf _ w hw)

theorem Room.symbol {c : Nat} {f : Symbol → Parse α} (hf : ∀ s, (f s).Room d c) :
    (Parsing.symbol >>= f).Room d c := fun w hw => .symbol (hf _ w hw)

theorem Room.ite {c : Nat} {b : Prop} [Decidable b] (hp : p.Room d c) (hq : q.Room d c) :
    (if b then p else q).Room d c := by
  split
  · exact hp
  · exact hq

/-! ## Single tokens -/

theorem consume_roomAt (hw : w.Proper) (hs : w.current.symbol ≠ .eof) :
    (consume : Parse _).RoomAt d w fun _ => 1 where
  ok hok := by
    refine ⟨Window.proper_of_consume hw hok, ?_⟩
    obtain ⟨-, rfl⟩ := Window.consume_eq_ok hok
    rw [hw.ahead_eq hs]
    exact Nat.le_refl _
  deep herror hdeep := by
    rw [consume_apply, Window.consume] at herror
    split at herror
    · cases herror
      cases hdeep
    · cases herror

/-- Taking the current token, whatever comes then. -/
theorem RoomAt.take {f : Token → Parse α} (hw : w.Proper) (hs : w.current.symbol ≠ .eof)
    (hf : ∀ t, (f t).Room (d - 1)) : (consume >>= f).RoomAt d w fun _ => 1 :=
  (consume_roomAt hw hs).bind fun t w' hw' _ =>
    (hf t w' hw').mono (Nat.le_refl _) fun _ => Nat.le_refl _

theorem accept_roomAt {s : Symbol} (hw : w.Proper) (hs : s ≠ .eof) :
    (accept s : Parse _).RoomAt d w fun t => if t.isSome then 1 else 0 := by
  refine .symbol ?_
  split
  · next h =>
    exact (consume_roomAt hw (h ▸ hs)).bind fun t w' hw' _ => .pure hw' rfl
  · exact .pure hw rfl

theorem accept_room {s : Symbol} (hs : s ≠ .eof) : (accept s : Parse _).Room d :=
  fun _ hw => (accept_roomAt hw hs).mono (Nat.le_refl _) fun _ => Nat.zero_le _

theorem expect_room {s : Symbol} (hs : s ≠ .eof) : (expect s : Parse _).Room d 1 := by
  intro w hw
  refine .symbol ?_
  split
  · next h => exact consume_roomAt hw (h ▸ hs)
  · exact .fail fun _ => rfl

theorem expectClosing_room {closer opener : Symbol} {line : Nat} (hs : closer ≠ .eof) :
    (expectClosing closer opener line : Parse _).Room d 1 := by
  intro w hw
  refine .current ?_
  split
  · next h => exact consume_roomAt hw (h ▸ hs)
  · split
    · exact .fail fun _ => rfl
    · exact .fail fun _ => rfl

theorem expectName_room : (expectName : Parse _).Room d 1 :=
  (expect_room (by decide)).bind fun _ => .pure

/-! ## Repetition -/

section Loop

variable {step : α → Parse (α ⊕ β)}

/-- The tokens that bound a repetition are not used up before those ahead. -/
theorem loopAlong_roomAt
    (hstep : ∀ a w, w.Proper → (step a).RoomAt d w (Sum.elim (fun _ => 1) fun _ => 0))
    {ts : List Token} {a : α} (hw : w.Proper) (hts : w.ahead.length ≤ ts.length) :
    (loopAlong step ts a).RoomAt d w fun _ => 0 := by
  induction ts generalizing a w with
  | nil =>
    refine (hstep a w hw).bind fun r w' hw' hr => ?_
    cases r with
    | inl a' =>
      have hlength := ((hstep a w hw).ok hr).2
      exact absurd (Nat.le_trans hlength hts) (Nat.not_succ_le_zero _)
    | inr b => exact .pure hw' rfl
  | cons t ts ih =>
    refine (hstep a w hw).bind fun r w' hw' hr => ?_
    cases r with
    | inl a' =>
      have hlength := ((hstep a w hw).ok hr).2
      refine (ih hw' ?_).mono (Nat.sub_le _ _) fun _ => Nat.le_refl _
      simp only [Sum.elim_inl, List.length_cons] at hlength hts
      omega
    | inr b => exact .pure hw' rfl

/-- A step that goes on takes a token at least. -/
theorem loop_room
    (hstep : ∀ a w, w.Proper → (step a).RoomAt d w (Sum.elim (fun _ => 1) fun _ => 0)) (a : α) :
    (loop step a).Room d := fun w hw => by
  obtain ⟨hok, hdeep⟩ := loopAlong_roomAt hstep (a := a) hw (Nat.le_refl _)
  exact ⟨hok, hdeep⟩

theorem RoomAt.goesOn {p : Parse (α ⊕ β)} (h : p.RoomAt d w fun _ => 1) :
    p.RoomAt d w (Sum.elim (fun _ => 1) fun _ => 0) :=
  h.mono (Nat.le_refl _) fun r => by cases r <;> simp

end Loop

theorem separated_room {separator : Symbol} {item : Token → Parse α} (hs : separator ≠ .eof)
    (hitem : ∀ t, (item t).Room d) (first : α) : (separated separator item first).Room d := by
  refine loop_room (fun as w hw => ?_) _
  refine (accept_roomAt hw hs).bind fun t w' hw' _ => ?_
  cases t with
  | none => exact .pure hw' rfl
  | some t =>
    exact ((hitem t).mono (Nat.sub_le _ _) (Nat.le_refl _) w' hw').bind fun _ _ hw'' _ =>
      .pure hw'' rfl

theorem commaList_room {item : Parse α} {c : Nat} (h : item.Room d c) : (commaList item).Room d c :=
  h.bind fun first => separated_room (by decide)
    (fun _ => h.mono (Nat.sub_le _ _) (Nat.zero_le _)) first

end Parse

/-- A level with room for `d` tokens. -/
structure Level.Room (inner : Level) (d : Nat) : Prop where
  block : ∀ terminators, (inner.block terminators).Room d
  operand : ∀ limit, (inner.operand limit).Room d

namespace Room

open Parse Parsing

variable {inner : Level} {d : Nat} {w : Window}

/-! ## Expressions

What begins with a token of its own has room for one more than the level inside it. -/

theorem expression_room (h : inner.Room d) : (Grammar.expression inner).Room d := h.operand 0

theorem expressionList_room (h : inner.Room d) : (Grammar.expressionList inner).Room d :=
  commaList_room (expression_room h)

theorem parameterStep_roomAt (names : List Name) (hw : w.Proper) :
    (Grammar.parameterStep names : Parse _).RoomAt d w (Sum.elim (fun _ => 1) fun _ => 0) := by
  refine (accept_roomAt hw (by decide)).bind fun t w' hw' _ => ?_
  cases t with
  | some t => exact .pure hw' rfl
  | none =>
    refine (expectName_room w' hw').bind fun name v hv _ => ?_
    refine (accept_roomAt hv (by decide)).bind fun t v' hv' _ => ?_
    cases t <;> exact .pure hv' (by simp)

theorem functionBody_room (h : inner.Room d) (line : Nat) :
    (Grammar.functionBody inner line).Room (d + 1) 1 := by
  refine (expect_room (by decide)).bind fun opening => ?_
  have hrest : ∀ r : List Name × Bool, Parse.Room (do
      let _ ← expect .rightParen
      let body ← inner.block [.kwEnd]
      let closing ← expectClosing .kwEnd .kwFunction line
      return (⟨r.1, r.2, body, Span.between opening.span closing.span⟩ : FunctionBody)) d :=
    fun r => (expect_room (by decide)).zero.bind fun _ => (h.block _).bind fun _ =>
      (expectClosing_room (by decide)).zero.bind fun _ => .pure
  refine .symbol fun s => ?_
  by_cases hs : s = .rightParen
  · rw [if_pos hs]
    exact Parse.Room.pure.bind hrest
  · rw [if_neg hs]
    exact (loop_room (fun names _ hw => parameterStep_roomAt names hw) []).bind hrest

theorem field_room (h : inner.Room d) : (Grammar.field inner).Room d := by
  have hpositional : (do return .positional (← Grammar.expression inner) : Parse Field).Room d :=
    (expression_room h).bind fun _ => .pure
  intro w hw
  refine .symbol ?_
  split
  · next hs =>
    refine RoomAt.mono (RoomAt.take hw (by simp [hs]) fun _ => ?_) (Nat.le_succ d)
      fun _ => Nat.zero_le 1
    exact (expression_room h).bind fun _ => (expect_room (by decide)).zero.bind fun _ =>
      (expect_room (by decide)).zero.bind fun _ => (expression_room h).bind fun _ => .pure
  · refine .followingSymbol ?_
    split
    · next hnext =>
      refine (expectName_room.zero w hw).bind fun name w' hw' hname => ?_
      have hcurrent := ((expectName_meets hw).ok hname).2.2
      refine RoomAt.mono (RoomAt.take (d := d + 1) hw' ?_ fun _ => ?_) (Nat.le_succ d)
        fun _ => Nat.zero_le 1
      · rw [hcurrent, hnext]
        decide
      · exact (expression_room h).bind fun _ => .pure
    · exact hpositional w hw
  · exact hpositional w hw

theorem acceptSeparator_roomAt (hw : w.Proper) :
    (Grammar.acceptSeparator : Parse _).RoomAt d w fun b => if b then 1 else 0 := by
  refine (accept_roomAt hw (by decide)).bind fun t w' hw' _ => ?_
  cases t with
  | some t => exact .pure hw' rfl
  | none =>
    refine (accept_roomAt hw' (by decide)).bind fun t v hv _ => ?_
    cases t <;> exact .pure hv rfl

theorem fieldStep_roomAt (h : inner.Room d) (fields : List Field) (hw : w.Proper) :
    (Grammar.fieldStep inner fields).RoomAt d w (Sum.elim (fun _ => 1) fun _ => 0) := by
  refine .symbol ?_
  split
  · exact .pure hw rfl
  · refine (field_room h w hw).bind fun f w' hw' _ => ?_
    refine (acceptSeparator_roomAt hw').bind fun b v hv _ => ?_
    cases b <;> exact .pure hv rfl

theorem table_room (h : inner.Room d) : (Grammar.table inner).Room (d + 1) 1 :=
  (expect_room (by decide)).bind fun _ =>
    (loop_room (fun fields _ hw => fieldStep_roomAt h fields hw) []).bind fun _ =>
      (expectClosing_room (by decide)).zero.bind fun _ => .pure

theorem arguments_room (h : inner.Room d) : (Grammar.arguments inner).Room (d + 1) 1 := by
  intro w hw
  refine .symbol ?_
  split
  · next hs =>
    refine .onSameLine fun joined => ?_
    split
    · refine .take hw (by simp [hs]) fun opening => ?_
      have hrest : ∀ values : List Expression, Parse.Room (do
          let closing ← expectClosing .rightParen .leftParen opening.span.start.line
          return Arguments.list values (Span.between opening.span closing.span)) d :=
        fun values => (expectClosing_room (by decide)).zero.bind fun _ => .pure
      refine .symbol fun s => ?_
      by_cases hs : s = .rightParen
      · rw [if_pos hs]
        exact Parse.Room.pure.bind hrest
      · rw [if_neg hs]
        exact (expressionList_room h).bind hrest
    · exact .fail fun _ => rfl
  · exact (table_room h).bind (fun _ => .pure) w hw
  · next hs => exact .take hw (by simp [hs]) fun _ => .pure
  · exact .fail fun _ => rfl

theorem primaryHead_room (h : inner.Room d) : (Grammar.primaryHead inner).Room (d + 1) 1 := by
  intro w hw
  refine .symbol ?_
  split
  · exact expectName_room.bind (fun _ => .pure) w hw
  · next hs =>
    refine .take hw (by simp [hs]) fun _ => ?_
    exact (expression_room h).bind fun _ => (expectClosing_room (by decide)).zero.bind fun _ =>
      .pure
  · exact .fail fun _ => rfl

theorem suffixStep_roomAt (h : inner.Room d) (p : Primary) (hw : w.Proper) :
    (Grammar.suffixStep inner p).RoomAt (d + 1) w (Sum.elim (fun _ => 1) fun _ => 0) := by
  have harguments : (do
      let args ← Grammar.arguments inner
      return .inl (.call (.function p args (Span.between p.span args.span))) :
      Parse (Primary ⊕ Primary)).RoomAt (d + 1) w fun _ => 1 :=
    (arguments_room h).bind (fun _ => .pure) w hw
  refine .symbol ?_
  split
  · next hs =>
    refine (RoomAt.take hw (by simp [hs]) fun _ => ?_).goesOn
    exact expectName_room.zero.bind fun _ => .pure
  · next hs =>
    refine (RoomAt.take hw (by simp [hs]) fun _ => ?_).goesOn
    exact (expression_room h).bind fun _ => (expect_room (by decide)).zero.bind fun _ => .pure
  · next hs =>
    refine (RoomAt.take hw (by simp [hs]) fun _ => ?_).goesOn
    exact expectName_room.zero.bind fun _ =>
      ((arguments_room h).mono (Nat.le_succ d) (Nat.zero_le 1)).bind fun _ => .pure
  · exact harguments.goesOn
  · exact harguments.goesOn
  · exact harguments.goesOn
  · exact .pure hw rfl

theorem primary_room (h : inner.Room d) : (Grammar.primary inner).Room (d + 1) 1 :=
  (primaryHead_room h).bind fun p =>
    (loop_room (fun p _ hw => suffixStep_roomAt h p hw) p).mono (Nat.le_succ d) (Nat.le_refl 0)

theorem number_room (hw : w.Proper) (hs : w.current.symbol = .number) :
    (Grammar.number : Parse _).RoomAt d w fun _ => 1 := by
  refine .current ?_
  rw [content_bind]
  split
  · exact .take hw (by simp [hs]) fun _ => .pure
  · exact .fail fun _ => rfl

theorem simpleOperand_room (h : inner.Room d) : (Grammar.simpleOperand inner).Room (d + 1) 1 := by
  intro w hw
  refine .current ?_
  split
  · next op hop =>
    exact .take hw (UnaryOperator.ne_eof_of_ofSymbol? hop) fun _ =>
      (h.operand _).bind fun _ => .pure
  · split
    · next hs => exact .take hw (by simp [hs]) fun _ => .pure
    · next hs => exact .take hw (by simp [hs]) fun _ => .pure
    · next hs => exact .take hw (by simp [hs]) fun _ => .pure
    · next hs => exact .take hw (by simp [hs]) fun _ => .pure
    · next hs => exact number_room hw hs
    · next hs => exact .take hw (by simp [hs]) fun _ => .pure
    · next hs =>
      refine .take hw (by simp [hs]) fun _ => ?_
      exact ((functionBody_room h _).mono (Nat.le_succ d) (Nat.zero_le 1)).bind fun _ => .pure
    · exact (table_room h).bind (fun _ => .pure) w hw
    · exact (primary_room h).bind (fun _ => .pure) w hw
    · exact (primary_room h).bind (fun _ => .pure) w hw
    · exact .fail fun _ => rfl

theorem operatorStep_roomAt (h : inner.Room d) (limit : Nat) (left : Expression)
    (hw : w.Proper) :
    (Grammar.operatorStep inner limit left).RoomAt (d + 1) w
      (Sum.elim (fun _ => 1) fun _ => 0) := by
  refine .symbol ?_
  split
  · next op hop =>
    split
    · exact .pure hw rfl
    · refine (RoomAt.take hw (BinaryOperator.ne_eof_of_ofSymbol? hop) fun _ => ?_).goesOn
      exact (h.operand _).bind fun _ => .pure
  · exact .pure hw rfl

theorem operand_room (h : inner.Room d) (limit : Nat) :
    (Grammar.operand inner limit).Room (d + 1) 1 :=
  (simpleOperand_room h).bind fun e =>
    (loop_room (fun left _ hw => operatorStep_roomAt h limit left hw) e).mono (Nat.le_succ d)
      (Nat.le_refl 0)

/-! ## Statements -/

theorem clause_room (h : inner.Room d) (keyword : Span) : (Grammar.clause inner keyword).Room d :=
  (expression_room h).bind fun _ => (expect_room (by decide)).zero.bind fun _ =>
    (h.block _).bind fun _ => .pure

theorem conditional_roomAt (h : inner.Room d) (hw : w.Proper) (hs : w.current.symbol = .kwIf) :
    (Grammar.conditional inner).RoomAt (d + 1) w fun _ => 1 := by
  refine .take hw (by simp [hs]) fun opening => ?_
  refine (clause_room h _).bind fun first => ?_
  refine (separated_room (by decide) (fun _ => clause_room h _) first).bind fun clauses => ?_
  have hrest : ∀ otherwise : Option Block, Parse.Room (do
      let closing ← expectClosing .kwEnd .kwIf opening.span.start.line
      return Statement.conditional clauses otherwise (Span.between opening.span closing.span)) d :=
    fun otherwise => (expectClosing_room (by decide)).zero.bind fun _ => .pure
  refine (accept_room (by decide)).bind fun t => ?_
  cases t with
  | some t => exact ((h.block _).map some).bind hrest
  | none => exact Parse.Room.pure.bind hrest

theorem forBody_room (h : inner.Room d) (line : Nat) : (Grammar.forBody inner line).Room d :=
  (expect_room (by decide)).zero.bind fun _ => (h.block _).bind fun _ =>
    (expectClosing_room (by decide)).zero.bind fun _ => .pure

theorem numericFor_room (h : inner.Room d) (opening : Span) :
    (Grammar.numericFor inner opening).Room d := by
  refine expectName_room.zero.bind fun counter => (expect_room (by decide)).zero.bind fun _ => ?_
  refine (expression_room h).bind fun start => (expect_room (by decide)).zero.bind fun _ => ?_
  refine (expression_room h).bind fun limit => ?_
  have hrest : ∀ step : Option Expression,
      Parse.Room (Grammar.forBody inner opening.start.line >>= fun r =>
        pure (Statement.numericFor counter start limit step r.1
          (Span.between opening r.2.span))) d :=
    fun step => (forBody_room h _).bind fun _ => .pure
  refine (accept_room (by decide)).bind fun t => ?_
  cases t with
  | some t => exact ((expression_room h).map some).bind hrest
  | none => exact Parse.Room.pure.bind hrest

theorem genericFor_room (h : inner.Room d) (opening : Span) :
    (Grammar.genericFor inner opening).Room d :=
  (commaList_room expectName_room.zero).bind fun _ => (expect_room (by decide)).zero.bind fun _ =>
    (expressionList_room h).bind fun _ => (forBody_room h _).bind fun _ => .pure

theorem forLoop_roomAt (h : inner.Room d) (hw : w.Proper) (hs : w.current.symbol = .kwFor) :
    (Grammar.forLoop inner).RoomAt (d + 1) w fun _ => 1 := by
  refine .take hw (by simp [hs]) fun opening => ?_
  intro w hw
  refine .symbol ?_
  split
  · next hs =>
    refine .followingSymbol ?_
    split
    · exact numericFor_room h _ w hw
    · exact genericFor_room h _ w hw
    · exact genericFor_room h _ w hw
    · exact (RoomAt.take hw (by simp [hs]) fun _ => .fail fun _ => rfl).mono (Nat.le_refl d)
        fun _ => Nat.zero_le 1
  · exact .fail fun _ => rfl

theorem functionName_room : (Grammar.functionName : Parse _).Room d := by
  refine expectName_room.zero.bind fun first => ?_
  refine (separated_room (by decide) (fun _ => expectName_room.zero) first).bind fun path => ?_
  refine (accept_room (by decide)).bind fun t => ?_
  cases t with
  | some t => exact expectName_room.zero.bind fun _ => .pure
  | none => exact .pure

theorem localAssign_room (h : inner.Room d) (opening : Span) :
    (Grammar.localAssign inner opening).Room d := by
  refine (commaList_room expectName_room.zero).bind fun names => ?_
  refine (accept_room (by decide)).bind fun t => ?_
  cases t with
  | some t => exact (expressionList_room h).bind fun _ => .pure
  | none => exact Parse.Room.pure.bind fun _ => .pure

theorem localStatement_roomAt (h : inner.Room d) (hw : w.Proper)
    (hs : w.current.symbol = .kwLocal) :
    (Grammar.localStatement inner).RoomAt (d + 1) w fun _ => 1 := by
  refine .take hw (by simp [hs]) fun opening => ?_
  refine (accept_room (by decide)).bind fun t => ?_
  cases t with
  | some t =>
    exact expectName_room.zero.bind fun _ =>
      ((functionBody_room h _).mono (Nat.le_succ d) (Nat.zero_le 1)).bind fun _ => .pure
  | none => exact localAssign_room h _

theorem returnStatement_roomAt (h : inner.Room d) (hw : w.Proper)
    (hs : w.current.symbol = .kwReturn) :
    (Grammar.returnStatement inner).RoomAt (d + 1) w fun _ => 1 := by
  refine .take hw (by simp [hs]) fun keyword => ?_
  refine .symbol fun s => ?_
  by_cases hs : s ∈ Grammar.endsValues
  · rw [if_pos hs]
    exact Parse.Room.pure.bind fun _ => (accept_room (by decide)).bind fun _ => .pure
  · rw [if_neg hs]
    exact (expressionList_room h).bind fun _ => (accept_room (by decide)).bind fun _ => .pure

theorem target_room (p : Primary) : (Grammar.target p : Parse _).Room d := by
  unfold Grammar.target
  split
  · exact .pure
  · exact .fail fun _ => rfl

theorem assign_room (h : inner.Room d) (first : Variable) :
    (Grammar.assign inner first).Room d := by
  have hnext : (Grammar.nextTarget inner).Room d :=
    ((primary_room h).mono (Nat.le_succ d) (Nat.zero_le 1)).bind target_room
  exact (separated_room (by decide) (fun _ => hnext) first).bind fun _ =>
    (expect_room (by decide)).zero.bind fun _ => (expressionList_room h).bind fun _ => .pure

theorem assignOrCall_room (h : inner.Room d) : (Grammar.assignOrCall inner).Room (d + 1) 1 := by
  refine (primary_room h).bind fun p => ?_
  refine .symbol fun s => ?_
  split
  · exact (target_room p).bind (assign_room h)
  · exact (target_room p).bind (assign_room h)
  · split
    · exact .pure
    · exact .fail fun _ => rfl
    · exact .fail fun _ => rfl

theorem statement_room (h : inner.Room d) : (Grammar.statement inner).Room (d + 1) 1 := by
  intro w hw
  refine .symbol ?_
  split
  · next hs => exact conditional_roomAt h hw hs
  · next hs =>
    exact .take hw (by simp [hs]) fun _ => (expression_room h).bind fun _ =>
      (expect_room (by decide)).zero.bind fun _ => (h.block _).bind fun _ =>
        (expectClosing_room (by decide)).zero.bind fun _ => .pure
  · next hs =>
    exact .take hw (by simp [hs]) fun _ => (h.block _).bind fun _ =>
      (expectClosing_room (by decide)).zero.bind fun _ => .pure
  · next hs => exact forLoop_roomAt h hw hs
  · next hs =>
    exact .take hw (by simp [hs]) fun _ => (h.block _).bind fun _ =>
      (expectClosing_room (by decide)).zero.bind fun _ => (expression_room h).bind fun _ => .pure
  · next hs =>
    exact .take hw (by simp [hs]) fun _ => functionName_room.bind fun _ =>
      ((functionBody_room h _).mono (Nat.le_succ d) (Nat.zero_le 1)).bind fun _ => .pure
  · next hs => exact localStatement_roomAt h hw hs
  · next hs =>
    exact .take hw (by simp [hs]) fun _ => expectName_room.zero.bind fun _ =>
      (expect_room (by decide)).zero.bind fun _ => .pure
  · next hs => exact .take hw (by simp [hs]) fun _ => expectName_room.zero.bind fun _ => .pure
  · exact assignOrCall_room h w hw

theorem breakStatement_roomAt (hw : w.Proper) (hs : w.current.symbol = .kwBreak) :
    (Grammar.breakStatement : Parse _).RoomAt d w fun _ => 1 :=
  .take hw (by simp [hs]) fun _ => (accept_room (by decide)).bind fun _ => .pure

theorem statementStep_roomAt (h : inner.Room d) (terminators : List Symbol)
    (statements : List Statement) (hw : w.Proper) :
    (Grammar.statementStep inner terminators statements).RoomAt (d + 1) w
      (Sum.elim (fun _ => 1) fun _ => 0) := by
  refine .symbol ?_
  split
  · exact .pure hw rfl
  · split
    · next hs => exact (RoomAt.take hw (by simp [hs]) fun _ => .pure).goesOn
    · next hs =>
      refine RoomAt.goesOn ((returnStatement_roomAt h hw hs).bind fun _ _ hv _ => ?_)
      exact .pure hv rfl
    · next hs =>
      refine RoomAt.goesOn ((breakStatement_roomAt hw hs).bind fun _ _ hv _ => ?_)
      exact .pure hv rfl
    · exact RoomAt.goesOn ((statement_room h).bind (fun _ => .pure) w hw)

theorem block_room (h : inner.Room d) (terminators : List Symbol) :
    (Grammar.block inner terminators).Room (d + 1) :=
  .current fun _ => (loop_room (fun statements _ hw =>
    statementStep_roomAt h terminators statements hw) []).bind fun _ => .pure

/-! ## Levels -/

/-- Each level has room for one token more than the one inside it. -/
theorem room_ofDepth (depth : Nat) : (Level.ofDepth depth).Room depth := by
  induction depth with
  | zero =>
    have hroom : ∀ {α : Type}, (fail .tooManyLevels : Parse α).Room 0 := fun w _ =>
      ⟨nofun, fun _ _ => Nat.zero_le _⟩
    exact ⟨fun _ => hroom, fun _ => hroom⟩
  | succ depth ih =>
    exact ⟨block_room ih, fun limit => (operand_room ih limit).zero⟩

/-- With more levels than tokens, an operand does not end for want of levels. -/
theorem operand_not_tooDeep {depth limit : Nat} {e : Located ParseFault} (hw : w.Proper)
    (hdepth : w.ahead.length < depth) (h : (Level.ofDepth depth).operand limit w = .error e) :
    e.cause.isTooDeep = false := by
  cases hdeep : e.cause.isTooDeep with
  | false => rfl
  | true => exact absurd (((room_ofDepth depth).operand limit w hw).deep h hdeep) (by omega)

end Room

end LuaSource
