-- SUMMARY: Expressions and their parts are placed by the tokens that they are parsed from.
import LuaSource.Grammar.Statement
import LuaSource.Proofs.Grammar.Places

/-!
# Placing expressions

Each production places its result if the level inside it does. A span begins with the first token
that is taken, since it is that token's or that of the part parsed first, and it ends with the last
one.
-/

namespace LuaSource

/-- A level whose blocks and operands are placed by the tokens that they are parsed from. -/
structure Level.Places (inner : Level) : Prop where
  block : ∀ terminators w, w.Proper →
    (inner.block terminators).Places w w (Placing.block w.current.span.start)
  operand : ∀ limit w, w.Proper → (inner.operand limit).Places w w Placing.expression

namespace Placing

open Parse Parsing

variable {inner : Level} {w : Window}

/-- A block is placed behind the symbol that opens it. -/
theorem behind_block {α : Type} {N : α → Language Mark} {terminators : List Symbol} {s : Symbol}
    {c : Mark} {K : Language Mark} {w₀ : Window} {f : Block → Parse α} (h : inner.Places)
    (hw : w₀.Over (K * exactly c) w) (hc : c.symbol = s) (hnext : w.current.span.start = c.next)
    (hf : ∀ b w', w₀.Over (K * behind s fun c => block c.next b) w' → (f b).Places w₀ w' N) :
    (inner.block terminators >>= f).Places w₀ w N := by
  refine .behind (L := fun b c => block c.next b) hw hc ?_ fun b w' _ hw' => hf b w' hw'
  rw [← hnext]
  exact h.block terminators w hw.proper

theorem expression_places (h : inner.Places) (hw : w.Proper) :
    (Grammar.expression inner).Places w w expression := h.operand 0 w hw

/-! ## Lists -/

theorem commaList_places {α : Type} {item : Parse α} {L : α → Language Mark}
    (hitem : ∀ w, w.Proper → item.Places w w L) (hw : w.Proper) :
    (commaList item).Places w w (list .comma L) := by
  intro as w' h
  obtain ⟨first, w₁, h₁, h₂⟩ := bind_eq_ok_iff.1 h
  have hfirst := hitem w hw first w₁ h₁
  obtain ⟨rest, rfl, hrest⟩ :=
    Places.separated (by decide) hfirst.proper (fun _ w hw => hitem w hw) as w' h₂
  simp only [behind_const] at hrest
  exact hfirst.mul hrest

theorem expressionList_places (h : inner.Places) (hw : w.Proper) :
    (Grammar.expressionList inner).Places w w expressions := by
  rw [funext expressions_eq]
  exact commaList_places (fun _ => expression_places h) hw

theorem expressions_ne_nil {es : List Expression} {u : List Mark} (h : u ∈ expressions es) :
    es ≠ [] := by
  rintro rfl
  rw [expressions] at h
  exact h

theorem values_eq {es : List Expression} (hes : es ≠ []) : values es = expressions es := by
  cases es with
  | nil => exact absurd rfl hes
  | cons e es => rw [values, expressions]

/-! ## Functions -/

theorem parameters_places (hw : w.Proper) :
    (loop Grammar.parameterStep [] : Parse _).Places w w fun r => parameters r.1 r.2 := by
  refine .loop (I := fun ns : List Name => beforeParameter ns.reverse) (.refl hw) fun ns v hv => ?_
  refine .accept hv (by decide) (fun v' hs _ hv' => .pure ?_) ?_
  · exact hv'.symbol hs
  · refine .bind hv (.expectName hv.proper) fun n v₁ _ hv₁ => ?_
    refine .accept hv₁ (by decide) (fun v₂ hs _ hv₂ => .pure ?_) (.pure ?_)
    · refine (hv₂.symbol hs).mono (le_of_eq ?_)
      rw [Sum.elim_inl, List.reverse_cons, beforeParameter, beforeParameter, List.map_append,
        List.prod_append, List.map_singleton, List.prod_singleton, mul_assoc]
    · refine hv₁.mono (le_of_eq ?_)
      simp [parameters]

theorem functionBody_places (h : inner.Places) (hw : w.Proper) (line : Nat) :
    (Grammar.functionBody inner line).Places w w functionBody := by
  refine .expect (.refl hw) (by decide) fun w₁ _ h₁ => .symbol ?_
  -- Both ways of reading parameters go on in the same way.
  have hrest : ∀ (r : List Name × Bool) (w₂ : Window),
      w.Over (1 * symbol .leftParen * parameters r.1 r.2) w₂ →
      Parse.Places (do
        let _ ← expect .rightParen
        let body ← inner.block [.kwEnd]
        let closing ← expectClosing .kwEnd .kwFunction line
        return (⟨r.1, r.2, body, Span.between w.current.span closing.span⟩ : FunctionBody))
      w w₂ functionBody := by
    intro r w₂ h₂
    refine .expectMark h₂ (by decide) fun w₃ hs _ hnext h₃ => ?_
    refine behind_block h h₃ hs hnext fun b w₄ h₄ => ?_
    refine .closing h₄ (by decide) fun w₅ hstop h₅ => .pure ?_
    simpa only [functionBody, one_mul, mul_assoc] using
      h₅.between (nil_notMem_symbol _) hstop
  split
  · rw [pure_bind]
    refine hrest ([], false) w₁ ?_
    simpa [parameters] using h₁
  · exact .bind h₁ (parameters_places h₁.proper) fun r w₂ _ h₂ => hrest r w₂ h₂

/-! ## Tables -/

theorem field_places (h : inner.Places) (hw : w.Proper) :
    (Grammar.field inner).Places w w field := by
  have hpositional :
      (do return .positional (← Grammar.expression inner) : Parse Field).Places w w field := by
    refine .bind (.refl hw) (expression_places h hw) fun e w₁ _ h₁ => .pure ?_
    simpa only [field, one_mul] using h₁
  refine .symbol ?_
  split
  · next hs =>
    refine .take (.refl hw) hs (by decide) fun w₁ _ h₁ => ?_
    refine .bind h₁ (expression_places h h₁.proper) fun key w₂ _ h₂ => ?_
    refine .expect h₂ (by decide) fun w₃ _ h₃ => .expect h₃ (by decide) fun w₄ _ h₄ => ?_
    refine .bind h₄ (expression_places h h₄.proper) fun value w₅ hvalue h₅ => .pure ?_
    have hspan := (expression_places h h₄.proper value w₅ hvalue).span_eq (fills_expression value)
    simpa only [field, one_mul, mul_assoc] using
      h₅.between (nil_notMem_of_fills (fills_expression value)) hspan.2
  · refine .followingSymbol ?_
    split
    · next hs hfollowing =>
      refine .bind (.refl hw) (.expectName hw) fun n w₁ hn h₁ => ?_
      have hname := (Places.expectName hw n w₁ hn).span_eq (fills_name n)
      have hassign : w₁.current.symbol = .assign := by
        have hcurrent := ((expectName_meets hw).ok hn).2.2
        rw [hcurrent]
        exact hfollowing
      refine .take h₁ hassign (by decide) fun w₂ _ h₂ => ?_
      refine .bind h₂ (expression_places h h₂.proper) fun value w₃ hvalue h₃ => .pure ?_
      have hspan := (expression_places h h₂.proper value w₃ hvalue).span_eq (fills_expression value)
      rw [field]
      refine Window.Over.spanned ?_ (nil_notMem_mul (nil_notMem_of_fills (fills_expression value)))
        hname.1 hspan.2
      simpa only [one_mul] using h₃
    · exact hpositional
  · exact hpositional

theorem acceptSeparator_places (hw : w.Proper) :
    (Grammar.acceptSeparator : Parse _).Places w w fun b =>
      if b then marked Spelling.fieldSeparator else 1 := by
  have hsymbol : ∀ {c : Mark} {s : Symbol} {w' : Window}, w.Over (1 * exactly c) w' →
      c.symbol = s → Spelling.symbol s ≤ Spelling.fieldSeparator →
      w.Over (marked Spelling.fieldSeparator) w' := by
    intro c s w' hc hs hle
    rw [← one_mul (marked _)]
    exact (hc.symbol hs).mono (mul_le_mul_right (marked_mono hle) 1)
  refine .accept (.refl hw) (by decide) (fun w' hs _ h' => .pure ?_) ?_
  · exact hsymbol h' hs le_self_add
  · refine .accept (.refl hw) (by decide) (fun w' hs _ h' => .pure ?_) (.pure (.refl hw))
    exact hsymbol h' hs le_add_self

/-- Fields with a separator behind each of them. -/
def beforeField (fs : List Field) : Language Mark :=
  (fs.map fun f => field f * marked Spelling.fieldSeparator).prod

theorem beforeField_cons (f : Field) (fs : List Field) :
    beforeField (f :: fs) = field f * marked Spelling.fieldSeparator * beforeField fs :=
  List.prod_cons

theorem beforeField_concat (fs : List Field) (f : Field) :
    beforeField (fs ++ [f]) = beforeField fs * field f * marked Spelling.fieldSeparator := by
  rw [beforeField, List.map_append, List.prod_append, List.map_singleton, List.prod_singleton,
    ← beforeField, mul_assoc]

theorem beforeField_le (fs : List Field) : beforeField fs ≤ fields fs := by
  induction fs with
  | nil => rw [beforeField, fields, List.map_nil, List.prod_nil]
  | cons f fs ih =>
    rw [beforeField_cons, fields, mul_assoc]
    exact mul_le_mul_right ((mul_le_mul_right ih _).trans le_self_add) _

theorem beforeField_mul_field_le (fs : List Field) (f : Field) :
    beforeField fs * field f ≤ fields (fs ++ [f]) := by
  induction fs with
  | nil =>
    rw [beforeField, List.nil_append, fields, List.map_nil, List.prod_nil, one_mul]
    exact le_mul_of_one_le_right' (by simp)
  | cons g fs ih =>
    rw [beforeField_cons, List.cons_append, fields, mul_assoc, mul_assoc]
    exact mul_le_mul_right ((mul_le_mul_right ih _).trans le_self_add) _

theorem fields_places (h : inner.Places) (hw : w.Proper) :
    (loop (Grammar.fieldStep inner) []).Places w w fields := by
  refine .loop (I := fun fs : List Field => beforeField fs.reverse) (.refl hw) fun fs v hv =>
    .symbol ?_
  split
  · exact .pure (hv.mono (beforeField_le _))
  · refine .bind hv (field_places h hv.proper) fun f v₁ _ hv₁ => ?_
    refine .bind hv₁ (acceptSeparator_places hv₁.proper) fun b v₂ _ hv₂ => ?_
    cases b with
    | true =>
      refine .pure (hv₂.mono (le_of_eq ?_))
      rw [Sum.elim_inl, List.reverse_cons, beforeField_concat, if_pos rfl]
    | false =>
      refine .pure (hv₂.mono ?_)
      rw [Sum.elim_inr, List.reverse_cons, if_neg Bool.false_ne_true, mul_one]
      exact beforeField_mul_field_le _ f

theorem table_places (h : inner.Places) (hw : w.Proper) :
    (Grammar.table inner).Places w w table := by
  refine .expect (.refl hw) (by decide) fun w₁ _ h₁ => ?_
  refine .bind h₁ (fields_places h h₁.proper) fun fs w₂ _ h₂ => ?_
  refine .closing h₂ (by decide) fun w₃ hstop h₃ => .pure ?_
  simpa only [table, one_mul, mul_assoc] using h₃.between (nil_notMem_symbol _) hstop

/-! ## Calls and indexes -/

/-- What is made of the current token alone. -/
theorem token_places {α : Type} {a : Token → α} {N : α → Language Mark} {L : Language Letter}
    (hw : w.Proper) (hs : w.current.symbol ≠ .eof) (hL : [w.mark.toLetter] ∈ L)
    (hN : N (a w.current) = spanned w.current.span (marked L)) :
    (do return a (← consume) : Parse α).Places w w N := by
  refine .takeMark (.refl hw) hs fun w₁ _ _ h₁ => .pure ?_
  rw [hN]
  rw [one_mul] at h₁
  refine h₁.mono ?_
  rintro u rfl
  exact ⟨hL, ⟨w.mark, rfl, rfl⟩, w.mark, rfl, rfl⟩

theorem arguments_places (h : inner.Places) (hw : w.Proper) :
    (Grammar.arguments inner).Places w w arguments := by
  refine .symbol ?_
  split
  · next hs =>
    refine .onSameLine ?_
    split
    · next hjoined =>
      refine .takeMark (.refl hw) (by simp [hs]) fun w₁ _ _ h₁ => .symbol ?_
      have hparen : w.Over (marked Spelling.argumentParen) w₁ := by
        refine h₁.mono ?_
        rw [one_mul]
        rintro u rfl
        exact ⟨_, ⟨hs, hjoined⟩, rfl⟩
      -- With values or without, the arguments end in the same way.
      have hrest : ∀ (es : List Expression) (w₂ : Window),
          w.Over (marked Spelling.argumentParen * values es) w₂ →
          (do
            let closing ← expectClosing .rightParen .leftParen w.current.span.start.line
            return .list es (Span.between w.current.span closing.span) : Parse Arguments).Places
            w w₂ arguments := by
        intro es w₂ h₂
        refine .closing h₂ (by decide) fun w₃ hstop h₃ => .pure ?_
        rw [arguments]
        exact h₃.between (nil_notMem_symbol _) hstop
      split
      · rw [pure_bind]
        refine hrest [] w₁ ?_
        rwa [values, mul_one]
      · refine .bind hparen (expressionList_places h h₁.proper) fun es w₂ hes h₂ => hrest es w₂ ?_
        obtain ⟨u, hu, -⟩ := expressionList_places h h₁.proper es w₂ hes
        rwa [values_eq (expressions_ne_nil hu)]
    · exact .fail
  · refine .bind (.refl hw) (table_places h hw) fun t w₁ _ h₁ => .pure ?_
    simpa only [arguments, one_mul] using h₁
  · next hs =>
    refine token_places (a := fun t => Arguments.string t.content t.span)
      (L := Spelling.string w.current.content) hw (by simp [hs])
      ⟨w.mark.toLetter, ⟨hs, rfl⟩, rfl⟩ ?_
    rw [arguments]
  · exact .fail

theorem primaryHead_places (h : inner.Places) (hw : w.Proper) :
    (Grammar.primaryHead inner).Places w w primary := by
  refine .symbol ?_
  split
  · refine .bind (.refl hw) (.expectName hw) fun n w₁ _ h₁ => .pure ?_
    simpa only [primary, target, one_mul] using h₁
  · next hs =>
    refine .take (.refl hw) hs (by decide) fun w₁ _ h₁ => ?_
    refine .bind h₁ (expression_places h h₁.proper) fun e w₂ _ h₂ => ?_
    refine .closing h₂ (by decide) fun w₃ hstop h₃ => .pure ?_
    simpa only [primary, one_mul] using h₃.between (nil_notMem_symbol _) hstop
  · exact .fail

/-- One more suffix ends what is placed further on. -/
theorem suffixStep_places {w₀ : Window} {p : Primary} (h : inner.Places)
    (hw : w₀.Over (primary p) w) :
    (Grammar.suffixStep inner p).Places w₀ w (Sum.elim primary primary) := by
  have hstart := (hw.span_eq (fills_primary p)).1
  -- Arguments of each form go on with the primary in the same way.
  have harguments : (do
        let args ← Grammar.arguments inner
        return .inl (.call (.function p args (Span.between p.span args.span))) :
        Parse (Primary ⊕ Primary)).Places w₀ w (Sum.elim primary primary) := by
    refine .bind hw (arguments_places h hw.proper) fun args w₁ hargs h₁ => .pure ?_
    have hspan := (arguments_places h hw.proper args w₁ hargs).span_eq (fills_arguments args)
    rw [Sum.elim_inl, primary, call]
    exact h₁.spanned (nil_notMem_mul (nil_notMem_of_fills (fills_arguments args))) hstart hspan.2
  refine .symbol ?_
  split
  · next hs =>
    refine .take hw hs (by decide) fun w₁ _ h₁ => ?_
    refine .bind h₁ (.expectName h₁.proper) fun n w₂ hn h₂ => .pure ?_
    have hspan := (Places.expectName h₁.proper n w₂ hn).span_eq (fills_name n)
    rw [Sum.elim_inl, primary, target]
    exact h₂.spanned (nil_notMem_mul (nil_notMem_of_fills (fills_name n))) hstart hspan.2
  · next hs =>
    refine .take hw hs (by decide) fun w₁ _ h₁ => ?_
    refine .bind h₁ (expression_places h h₁.proper) fun key w₂ _ h₂ => ?_
    refine .expect h₂ (by decide) fun w₃ hstop h₃ => .pure ?_
    rw [Sum.elim_inl, primary, target]
    exact h₃.spanned (nil_notMem_mul (nil_notMem_symbol _)) hstart hstop
  · next hs =>
    refine .take hw hs (by decide) fun w₁ _ h₁ => ?_
    refine .bind h₁ (.expectName h₁.proper) fun n w₂ _ h₂ => ?_
    refine .bind h₂ (arguments_places h h₂.proper) fun args w₃ hargs h₃ => .pure ?_
    have hspan := (arguments_places h h₂.proper args w₃ hargs).span_eq (fills_arguments args)
    rw [Sum.elim_inl, primary, call]
    exact h₃.spanned (nil_notMem_mul (nil_notMem_of_fills (fills_arguments args))) hstart hspan.2
  · exact harguments
  · exact harguments
  · exact harguments
  · exact .pure hw

theorem primary_places (h : inner.Places) (hw : w.Proper) :
    (Grammar.primary inner).Places w w primary := by
  refine .bind (.refl hw) (primaryHead_places h hw) fun p w₁ _ h₁ => ?_
  rw [one_mul] at h₁
  exact .loop h₁ fun p v hv => suffixStep_places h hv

/-! ## Operands -/

theorem number_places (hw : w.Proper) (hs : w.current.symbol = .number) :
    (Grammar.number : Parse _).Places w w expression := by
  refine .current ?_
  rw [content_bind]
  split
  · next value hvalue =>
    refine token_places (a := fun _ => Expression.number value w.current.span)
      (L := Spelling.number value) hw (by simp [hs]) ⟨w.mark.toLetter, ⟨hs, hvalue⟩, rfl⟩ ?_
    rw [expression]
  · exact .fail

theorem simpleOperand_places (h : inner.Places) (hw : w.Proper) :
    (Grammar.simpleOperand inner).Places w w expression := by
  -- An operand that is written as one symbol.
  have hconstant : ∀ {s : Symbol} (e : Span → Expression), w.current.symbol = s → s ≠ .eof →
      (∀ span, expression (e span) = spanned span (symbol s)) →
      (do return e (← consume).span : Parse _).Places w w expression := by
    intro s e hs hne he
    exact token_places (a := fun t => e t.span) (L := Spelling.symbol s) hw (hs ▸ hne)
      ⟨_, hs, rfl⟩ (he _)
  have hprimary :
      (do return .primary (← Grammar.primary inner) : Parse _).Places w w expression := by
    refine .bind (.refl hw) (primary_places h hw) fun p w₁ _ h₁ => .pure ?_
    simpa only [expression, one_mul] using h₁
  refine .current ?_
  split
  · next op hop =>
    have hs : w.current.symbol = op.symbol := (UnaryOperator.symbol_of_ofSymbol? hop).symm
    refine .take (.refl hw) hs op.symbol_ne_eof fun w₁ _ h₁ => ?_
    refine .bind h₁ (h.operand _ w₁ h₁.proper) fun e w₂ he h₂ => .pure ?_
    have hspan := (h.operand _ w₁ h₁.proper e w₂ he).span_eq (fills_expression e)
    simpa only [expression, one_mul] using
      h₂.between (nil_notMem_of_fills (fills_expression e)) hspan.2
  · split
    · next hs => exact hconstant _ hs (by decide) fun _ => by rw [expression]
    · next hs => exact hconstant (.boolean true) hs (by decide) fun _ => by rw [expression, if_pos rfl]
    · next hs =>
      exact hconstant (.boolean false) hs (by decide) fun _ => by
        rw [expression, if_neg Bool.false_ne_true]
    · next hs => exact hconstant _ hs (by decide) fun _ => by rw [expression]
    · next hs => exact number_places hw hs
    · next hs =>
      refine token_places (a := fun _ => Expression.string w.current.content w.current.span)
        (L := Spelling.string w.current.content) hw (by simp [hs])
        ⟨w.mark.toLetter, ⟨hs, rfl⟩, rfl⟩ ?_
      rw [expression]
    · next hs =>
      refine .take (.refl hw) hs (by decide) fun w₁ _ h₁ => ?_
      refine .bind h₁ (functionBody_places h h₁.proper _) fun f w₂ hf h₂ => .pure ?_
      have hspan := (functionBody_places h h₁.proper _ f w₂ hf).span_eq (fills_functionBody f)
      simpa only [expression, one_mul] using
        h₂.between (nil_notMem_of_fills (fills_functionBody f)) hspan.2
    · refine .bind (.refl hw) (table_places h hw) fun t w₁ _ h₁ => .pure ?_
      simpa only [expression, one_mul] using h₁
    · exact hprimary
    · exact hprimary
    · exact .fail

/-- One more operator, which takes up the operand to its left. -/
theorem operatorStep_places {w₀ : Window} {left : Expression} {limit : Nat} (h : inner.Places)
    (hw : w₀.Over (expression left) w) :
    (Grammar.operatorStep inner limit left).Places w₀ w (Sum.elim expression expression) := by
  refine .symbol ?_
  split
  · next op hop =>
    split
    · exact .pure hw
    · have hs : w.current.symbol = op.symbol := (BinaryOperator.symbol_of_ofSymbol? hop).symm
      refine .take hw hs op.symbol_ne_eof fun w₁ _ h₁ => ?_
      refine .bind h₁ (h.operand _ w₁ h₁.proper) fun right w₂ hright h₂ => .pure ?_
      have hspan := (h.operand _ w₁ h₁.proper right w₂ hright).span_eq (fills_expression right)
      rw [Sum.elim_inl, expression]
      exact h₂.spanned (nil_notMem_mul (nil_notMem_of_fills (fills_expression right)))
        (hw.span_eq (fills_expression left)).1 hspan.2
  · exact .pure hw

theorem operand_places (h : inner.Places) (hw : w.Proper) (limit : Nat) :
    (Grammar.operand inner limit).Places w w expression := by
  refine .bind (.refl hw) (simpleOperand_places h hw) fun e w₁ _ h₁ => ?_
  rw [one_mul] at h₁
  exact .loop h₁ fun left v hv => operatorStep_places h hv

end Placing

end LuaSource
