-- SUMMARY: Expressions, calls and indexes and functions are given back from their spellings.
import LuaSource.Proofs.Grammar.Gives
import LuaSource.Proofs.Grammar.LocalGrammar
import LuaSource.Proofs.Grammar.ReadExpression
import LuaSource.Proofs.Tree.Shape

/-!
# Giving expressions

On a spelling of a tree that is nested no deeper than a level goes, the productions give the
tree, up to spans. Operators are folded onto the operand to their left in the order in which
the tree has them along its left side, and so are suffixes.
-/

namespace LuaSource

/-- A level that gives every tree that needs no more than `depth` levels. No operator offers a
greater limit than 9. -/
structure Level.Complete (inner : Level) (depth : Nat) : Prop where
  isLocal : inner.Local
  block : ∀ {terminators b w R}, w.Ready → w.letters ∈ Spelling.block b * R →
    Everywhere.block grammatical b → Need.block b ≤ depth →
    (∀ s ∈ terminators, s.endsBlock = true) → Begins R (fun s => s = .eof ∨ s ∈ terminators) →
    (inner.block terminators).Gives w R fun b' => Shape.block b' = Shape.block b
  operand : ∀ {limit e w R}, limit ≤ 9 → w.Ready → w.letters ∈ Spelling.expression e * R →
    Everywhere.expression grammatical e → e.needsParensBehind limit = false →
    Need.expression e < depth → Begins R (e.StopsAt limit) →
    (inner.operand limit).Gives w R fun e' => Shape.expression e' = Shape.expression e

def Expression.isBinary : Expression → Bool
  | .binary .. => true
  | _ => false

/-- No operator has a left power of 9. So what stops an operand within a limit leaves the operators
in it as they are. -/
theorem Expression.StopsAt.precedes {limit : Nat} {e : Expression} {s : Symbol}
    (h : e.StopsAt limit s) (hlimit : limit ≤ 9) (he : e.needsParensBehind limit = false) :
    e.Precedes s where
  operator op hop := by
    have hle := h.operator op hop
    cases e with
    | binary op' left right span =>
      have hlt := Nat.not_le.1 (of_decide_eq_false he)
      refine decide_eq_false (Nat.not_lt.2 ?_)
      have hpowers : op'.leftPower ≤ op'.rightPower + 1 := by cases op' <;> decide
      omega
    | unary op' operand span =>
      refine decide_eq_false (Nat.not_lt.2 ?_)
      have hpower : op.leftPower ≤ 9 := hle.trans hlimit
      revert hpower
      cases op <;> decide
    | _ => rfl
  suffix := h.suffix

namespace Give

open Parse

variable {inner : Level} {depth : Nat} {w : Window} {R : Language Letter}

theorem needsParensBehind_zero (e : Expression) : e.needsParensBehind 0 = false := by
  cases e with
  | binary op left right span => exact decide_eq_false (Nat.not_le.2 op.leftPower_pos)
  | _ => rfl

theorem expression_gives {e : Expression} (h : inner.Complete depth) (hw : w.Ready)
    (hl : w.letters ∈ Spelling.expression e * R) (he : Everywhere.expression grammatical e)
    (hneed : Need.expression e < depth) (hR : Begins R (e.StopsAt 0)) :
    (Grammar.expression inner).Gives w R fun e' => Shape.expression e' = Shape.expression e :=
  h.operand (Nat.zero_le 9) hw hl he (needsParensBehind_zero e) hneed hR

theorem expressionList_gives {es : List Expression} (h : inner.Complete depth) (hw : w.Ready)
    (hl : w.letters ∈ Spelling.expressions es * R) (hes : Everywhere.expressions grammatical es)
    (hneed : Need.expressions es ≤ depth) (hcomma : Begins R (· ≠ .comma))
    (hR : ∀ e ∈ es.getLast?, Begins R (e.StopsAt 0)) :
    (Grammar.expressionList inner).Gives w R fun es' =>
      Shape.expressions es' = Shape.expressions es := by
  rw [Spelling.expressions_eq] at hl
  simp only [Shape.expressions_eq_map]
  refine commaList_gives (F := fun e s => e.StopsAt 0 s) (Local.expression_local h.isLocal) ?_
    (fun _ => .of_delimiter rfl rfl) hR hcomma hw hl
  intro e he w M hw hl hM
  exact expression_gives h hw hl (Everywhere.expressions_iff.1 hes e he)
    (Need.expressions_le_iff.1 hneed e he) hM

/-! ## Functions -/

theorem parameters_cons (n : Name) {ns : List Name} {hasVarargs : Bool}
    (h : ns ≠ [] ∨ hasVarargs = true) :
    Spelling.parameters (n :: ns) hasVarargs =
      Spelling.name n * Spelling.symbol .comma * Spelling.parameters ns hasVarargs := by
  cases ns with
  | nil =>
    obtain rfl : hasVarargs = true := by simpa using h
    simp [Spelling.parameters, Spelling.names, Spelling.list, Spelling.series]
  | cons m ns =>
    cases hasVarargs <;>
      simp [Spelling.parameters, Spelling.names, Spelling.list, Spelling.series, mul_assoc]

theorem parameters_gives {ns : List Name} {hasVarargs : Bool} (hne : ns ≠ [] ∨ hasVarargs = true)
    (hR : Begins R (· = .rightParen)) (ms : List Name) (hw : w.Ready)
    (hl : w.letters ∈ Spelling.parameters ns hasVarargs * R) :
    (loop Grammar.parameterStep ms : Parse _).Gives w R fun r =>
      r.1.map Shape.name = ms.reverse.map Shape.name ++ ns.map Shape.name ∧ r.2 = hasVarargs := by
  induction ns generalizing ms w with
  | nil =>
    obtain rfl : hasVarargs = true := by simpa using hne
    refine .loop_ends Local.parameterStep_local hw (.accept_some hw hl fun t w' hw' hl' => ?_)
    exact .pure hw' hl' ⟨_, rfl, by simp, rfl⟩
  | cons n ns ih =>
    have hname : ∀ {M : Language Letter}, w.letters ∈ Spelling.name n * M →
        w.current.symbol ≠ .ellipsis := fun h =>
      hw.begins (P := (· ≠ .ellipsis)) h (.name (by decide))
    by_cases hmore : ns ≠ [] ∨ hasVarargs = true
    · rw [parameters_cons n hmore, mul_assoc, mul_assoc] at hl
      refine .loop Local.parameterStep_local hw (M := Spelling.parameters ns hasVarargs * R) ?_
      refine .accept_none (hname hl) ?_
      refine .expectName hw hl fun m w' hw' hl' hm => ?_
      refine .accept_some hw' hl' fun t w'' hw'' hl'' => ?_
      refine .pure hw'' hl'' fun w' hw' hl' => ?_
      refine (ih hmore (m :: ms) hw' hl').mono fun r hr => ⟨?_, hr.2⟩
      rw [hr.1]
      simp [Shape.name, hm]
    · obtain ⟨hns, hvarargs⟩ := not_or.1 hmore
      obtain rfl := not_not.1 hns
      obtain rfl := Bool.eq_false_of_not_eq_true hvarargs
      have hone : Spelling.parameters [n] false = Spelling.name n := by
        simp [Spelling.parameters, Spelling.names, Spelling.list, Spelling.series]
      rw [hone] at hl
      refine .loop_ends Local.parameterStep_local hw (.accept_none (hname hl) ?_)
      refine .expectName hw hl fun m w' hw' hl' hm => ?_
      have hs := hw'.begins hl' hR
      refine .accept_none (by simp [hs]) ?_
      exact .pure hw' hl' ⟨_, rfl, by simp [Shape.name, hm], rfl⟩

theorem functionBody_gives {f : FunctionBody} (h : inner.Complete depth) (hw : w.Ready)
    (hl : w.letters ∈ Spelling.functionBody f * R) (hf : Everywhere.functionBody grammatical f)
    (hneed : Need.functionBody f ≤ depth) (line : Nat) :
    (Grammar.functionBody inner line).Gives w R fun f' =>
      Shape.functionBody f' = Shape.functionBody f := by
  obtain ⟨ns, hasVarargs, b, span⟩ := f
  rw [Spelling.functionBody] at hl
  simp only [mul_assoc] at hl
  refine .expect hw hl fun opening w' hw' hl' => ?_
  -- Both ways of reading parameters go on in the same way.
  have hrest : ∀ (r : List Name × Bool) (w : Window), w.Ready →
      w.letters ∈ Spelling.symbol .rightParen * (Spelling.block b * (Spelling.symbol .kwEnd * R)) →
      r.1.map Shape.name = ns.map Shape.name → r.2 = hasVarargs → Gives (do
        let _ ← expect .rightParen
        let body ← inner.block [.kwEnd]
        let closing ← expectClosing .kwEnd .kwFunction line
        return (⟨r.1, r.2, body, Span.between opening.span closing.span⟩ : FunctionBody)) w R
      fun f' => Shape.functionBody f' = Shape.functionBody ⟨ns, hasVarargs, b, span⟩ := by
    intro r w hw hl hns hvarargs
    refine .expect hw hl fun _ w' hw' hl' => ?_
    refine (h.block hw' hl' hf.2 hneed (by decide) (.symbol (.inr (by simp)))).bind
      fun b' w'' hw'' hl'' hb => ?_
    refine .expectClosing hw'' hl'' fun closing w' hw' hl' => .pure hw' hl' ?_
    rw [Shape.functionBody, Shape.functionBody, hns, hvarargs, hb]
  refine .symbol ?_
  by_cases hne : ns ≠ [] ∨ hasVarargs = true
  · have hs : w'.current.symbol ≠ .rightParen := by
      cases ns with
      | nil =>
        obtain rfl : hasVarargs = true := by simpa using hne
        exact hw'.begins (P := (· ≠ .rightParen)) hl' (.symbol (by decide))
      | cons n ns =>
        cases hasVarargs <;>
          (simp only [Spelling.parameters, Spelling.names, Spelling.list, mul_assoc] at hl'
           exact hw'.begins (P := (· ≠ .rightParen)) hl' (.name (by decide)))
    rw [if_neg hs]
    exact (parameters_gives hne (.symbol rfl) [] hw' hl').bind fun r w'' hw'' hl'' hr =>
      hrest r w'' hw'' hl'' (by simpa using hr.1) hr.2
  · obtain ⟨hns, hvarargs⟩ := not_or.1 hne
    obtain rfl := not_not.1 hns
    obtain rfl := Bool.eq_false_of_not_eq_true hvarargs
    rw [Spelling.parameters, one_mul] at hl'
    rw [if_pos (hw'.symbol hl'), pure_bind]
    exact hrest ([], false) w' hw' hl' rfl rfl

/-! ## Tables -/

theorem field_gives {f : Field} (h : inner.Complete depth) (hw : w.Ready)
    (hl : w.letters ∈ Spelling.field f * R) (hf : Everywhere.field grammatical f)
    (hneed : Need.field f ≤ depth) (hassign : Begins R (· ≠ .assign))
    (hR : ∀ e : Expression, Begins R (e.StopsAt 0)) :
    (Grammar.field inner).Gives w R fun f' => Shape.field f' = Shape.field f := by
  refine .symbol ?_
  cases f with
  | keyed key value span =>
    rw [Spelling.field] at hl
    simp only [mul_assoc] at hl
    rw [Need.field, Nat.max_le] at hneed
    rw [hw.symbol hl]
    refine .take hw hl fun w' hw' hl' _ => ?_
    refine (expression_gives h hw' hl' hf.1 (by omega) (.symbol (.of_delimiter rfl rfl))).bind
      fun key' w'' hw'' hl'' hkey => ?_
    refine .expect hw'' hl'' fun _ w' hw' hl' => ?_
    refine .expect hw' hl' fun _ w'' hw'' hl'' => ?_
    refine (expression_gives h hw'' hl'' hf.2 (by omega) (hR value)).bind
      fun value' w' hw' hl' hvalue => .pure hw' hl' ?_
    rw [Shape.field, Shape.field, hkey, hvalue]
  | named n value span =>
    rw [Spelling.field, mul_assoc, mul_assoc] at hl
    rw [Need.field] at hneed
    rw [hw.begins (P := (· = .name)) hl (.name rfl)]
    refine .followingSymbol ?_
    rw [if_pos]
    · refine .expectName hw hl fun n' w' hw' hl' hn => ?_
      refine .take hw' hl' fun w'' hw'' hl'' _ => ?_
      refine (expression_gives h hw'' hl'' hf.2 (by omega) (hR value)).bind
        fun value' w' hw' hl' hvalue => .pure hw' hl' ?_
      rw [Shape.field, Shape.field, Shape.name, Shape.name, hn, hvalue]
    · rw [hw.proper.symbol_following]
      exact Begins.symbol (P := (· = .assign)) rfl _ (tail_mem hl)
  | positional value =>
    rw [Spelling.field] at hl
    rw [Need.field] at hneed
    have hpositional : Gives (do return .positional (← Grammar.expression inner)) w R
        fun f' => Shape.field f' = Shape.field (.positional value) := by
      refine (expression_gives h hw hl hf (by omega) (hR value)).bind
        fun value' w' hw' hl' hvalue => .pure hw' hl' ?_
      rw [Shape.field, Shape.field, hvalue]
    have hbegins := hw.begins hl (begins_expression value R)
    split
    · next hs =>
      rw [hs] at hbegins
      cases hbegins
    · next hs =>
      refine .followingSymbol ?_
      rw [if_neg]
      · exact hpositional
      · rw [hw.proper.symbol_following]
        refine noKey_expression value hassign _ hl ?_
        rw [← hw.proper.symbol_current, hs]
    · exact hpositional

theorem acceptSeparator_gives (hw : w.Ready) (hl : w.letters ∈ Spelling.fieldSeparator * R) :
    (Grammar.acceptSeparator : Parse _).Gives w R (· = true) := by
  rw [Spelling.fieldSeparator, add_mul] at hl
  rcases (Language.mem_add _ _ _).1 hl with hl | hl
  · exact .accept_some hw hl fun t w' hw' hl' => .pure hw' hl' rfl
  · refine .accept_none (hw.begins (P := (· ≠ .comma)) hl (.symbol (by decide))) ?_
    exact .accept_some hw hl fun t w' hw' hl' => .pure hw' hl' rfl

theorem acceptSeparator_gives_false (hw : w.Ready) (hl : w.letters ∈ R)
    (hR : Begins R (· = .rightBrace)) :
    (Grammar.acceptSeparator : Parse _).Gives w R (· = false) := by
  have hs := hw.begins hl hR
  exact .accept_none (by simp [hs]) (.accept_none (by simp [hs]) (.pure hw hl rfl))

/-- Behind a field there is a separator with the other fields behind it, or the table ends. -/
theorem mem_moreFields {fs : List Field} {u : List Letter}
    (h : u ∈ Spelling.moreFields fs * R) :
    u ∈ Spelling.fieldSeparator * (Spelling.fields fs * R) ∨ fs = [] ∧ u ∈ R := by
  cases fs with
  | nil =>
    rw [Spelling.moreFields, add_mul, one_mul] at h
    rcases (Language.mem_add _ _ _).1 h with h | h
    · exact .inr ⟨rfl, h⟩
    · exact .inl (by rwa [Spelling.fields, one_mul])
  | cons f fs =>
    refine .inl ?_
    rw [Spelling.fields]
    rw [Spelling.moreFields] at h
    simpa only [mul_assoc] using h

theorem begins_moreFields {fs : List Field} {P : Symbol → Prop} (hcomma : P .comma)
    (hsemicolon : P .semicolon) (hbrace : P .rightBrace) (hR : Begins R (· = .rightBrace)) :
    Begins (Spelling.moreFields fs * R) P := by
  intro u hu
  rcases mem_moreFields hu with hu | ⟨-, hu⟩
  · exact Begins.add (.symbol hcomma) (.symbol hsemicolon) u hu
  · rw [hR u hu]
    exact hbrace

theorem begins_field (f : Field) : Begins (Spelling.field f * R) (· ≠ .rightBrace) := by
  cases f with
  | keyed key value span =>
    rw [Spelling.field]
    simp only [mul_assoc]
    exact .symbol (by decide)
  | named n value span =>
    rw [Spelling.field, mul_assoc, mul_assoc]
    exact .name (by decide)
  | positional value =>
    rw [Spelling.field]
    exact (begins_expression value R).mono fun s hs hbrace => by rw [hbrace] at hs; cases hs

theorem fields_gives {fs : List Field} (h : inner.Complete depth)
    (hfs : Everywhere.fields grammatical fs) (hneed : Need.fields fs ≤ depth)
    (hR : Begins R (· = .rightBrace)) (gs : List Field) (hw : w.Ready)
    (hl : w.letters ∈ Spelling.fields fs * R) :
    (loop (Grammar.fieldStep inner) gs).Gives w R fun hs =>
      hs.map Shape.field = gs.reverse.map Shape.field ++ fs.map Shape.field := by
  induction fs generalizing gs w with
  | nil =>
    rw [Spelling.fields, one_mul] at hl
    refine .loop_ends (Local.fieldStep_local h.isLocal) hw (.symbol ?_)
    rw [if_pos (hw.begins hl hR)]
    exact .pure hw hl ⟨_, rfl, by simp⟩
  | cons f fs ih =>
    rw [Spelling.fields, mul_assoc] at hl
    rw [Need.fields, Nat.max_le] at hneed
    have hmore : ∀ {P : Symbol → Prop}, P .comma → P .semicolon → P .rightBrace →
        Begins (Spelling.moreFields fs * R) P := fun h₁ h₂ h₃ => begins_moreFields h₁ h₂ h₃ hR
    have hf := field_gives h hw hl hfs.1 hneed.1 (hmore (by decide) (by decide) (by decide))
      fun e => hmore (.of_delimiter rfl rfl) (.of_delimiter rfl rfl) (.of_delimiter rfl rfl)
    have hstep : ∀ {M : Language Letter} {Q : List Field ⊕ List Field → Prop},
        (do
          let f ← Grammar.field inner
          if ← Grammar.acceptSeparator then return .inl (f :: gs)
          else return .inr (f :: gs).reverse : Parse (List Field ⊕ List Field)).Gives w M Q →
        (Grammar.fieldStep inner gs).Gives w M Q := by
      intro M Q hrest
      refine .symbol ?_
      rwa [if_neg (hw.begins hl (begins_field f))]
    obtain ⟨g, w', hg, hw', hl', hshape⟩ := hf
    rcases mem_moreFields hl' with hl'' | ⟨rfl, hl''⟩
    · refine .loop (Local.fieldStep_local h.isLocal) hw (M := Spelling.fields fs * R) ?_
      refine hstep (.bind (R := Spelling.fieldSeparator * (Spelling.fields fs * R))
        (P := (· = g)) ⟨g, w', hg, hw', hl'', rfl⟩ ?_)
      rintro _ w' hw' hl' rfl
      refine (acceptSeparator_gives hw' hl').bind ?_
      rintro _ w' hw' hl' rfl
      refine .pure hw' hl' fun w' hw' hl' => ?_
      refine (ih hfs.2 hneed.2 (_ :: gs) hw' hl').mono fun hs hhs => ?_
      rw [hhs]
      simp [hshape]
    · refine .loop_ends (Local.fieldStep_local h.isLocal) hw ?_
      refine hstep (.bind (R := R) (P := (· = g)) ⟨g, w', hg, hw', hl'', rfl⟩ ?_)
      rintro _ w' hw' hl' rfl
      refine (acceptSeparator_gives_false hw' hl' hR).bind ?_
      rintro _ w' hw' hl' rfl
      exact .pure hw' hl' ⟨_, rfl, by simp [hshape]⟩

theorem table_gives {t : Table} (h : inner.Complete depth) (hw : w.Ready)
    (hl : w.letters ∈ Spelling.table t * R) (ht : Everywhere.table grammatical t)
    (hneed : Need.table t ≤ depth) :
    (Grammar.table inner).Gives w R fun t' => Shape.table t' = Shape.table t := by
  obtain ⟨fs, span⟩ := t
  rw [Spelling.table, mul_assoc, mul_assoc] at hl
  refine .expect hw hl fun opening w' hw' hl' => ?_
  refine (fields_gives h ht hneed (.symbol rfl) [] hw' hl').bind fun gs w'' hw'' hl'' hgs => ?_
  refine .expectClosing hw'' hl'' fun closing w' hw' hl' => .pure hw' hl' ?_
  rw [Shape.table, Shape.table, Shape.fields_eq_map, Shape.fields_eq_map, hgs]
  rfl

/-! ## Calls and indexes -/

theorem arguments_gives {a : Arguments} (h : inner.Complete depth) (hw : w.Ready)
    (hl : w.letters ∈ Spelling.arguments a * R) (ha : Everywhere.arguments grammatical a)
    (hneed : Need.arguments a ≤ depth) :
    (Grammar.arguments inner).Gives w R fun a' => Shape.arguments a' = Shape.arguments a := by
  refine .symbol ?_
  cases a with
  | list es span =>
    rw [Spelling.arguments, mul_assoc, mul_assoc] at hl
    obtain ⟨-, -, ⟨hs, hjoined⟩, -⟩ := hw.take hl
    have hs : w.current.symbol = .leftParen := hs
    rw [hs]
    refine .onSameLine hjoined (.take hw hl fun w' hw' hl' _ => ?_)
    have hrest : ∀ (es' : List Expression) (v : Window), v.Ready →
        v.letters ∈ Spelling.symbol .rightParen * R →
        Shape.expressions es' = Shape.expressions es → Gives (do
          let closing ← expectClosing .rightParen .leftParen w.current.span.start.line
          return Arguments.list es' (Span.between w.current.span closing.span)) v R
        fun a' => Shape.arguments a' = Shape.arguments (.list es span) := by
      intro es' v hv hl hes
      refine .expectClosing hv hl fun closing w' hw' hl' => .pure hw' hl' ?_
      rw [Shape.arguments, Shape.arguments, hes]
    refine .symbol ?_
    cases es with
    | nil =>
      rw [Spelling.values, one_mul] at hl'
      rw [if_pos (hw'.symbol hl'), pure_bind]
      exact hrest [] w' hw' hl' rfl
    | cons e es =>
      have hbegins := hw'.begins (P := (·.beginsExpression = true)) hl' (by
        rw [Spelling.values, mul_assoc]
        exact begins_expression e _)
      rw [if_neg (by intro hs; rw [hs] at hbegins; cases hbegins)]
      rw [Read.values_eq (List.cons_ne_nil e es)] at hl'
      have hR : ∀ {P : Symbol → Prop}, P .rightParen →
          Begins (Spelling.symbol .rightParen * R) P := .symbol
      exact (expressionList_gives h hw' hl' ha hneed (hR (by decide)) fun _ _ =>
        hR (.of_delimiter rfl rfl)).bind fun es' w'' hw'' hl'' hes => hrest es' w'' hw'' hl'' hes
  | table t =>
    rw [Spelling.arguments] at hl
    rw [hw.begins hl (begins_table t R)]
    refine (table_gives h hw hl ha hneed).bind fun t' w' hw' hl' ht => .pure hw' hl' ?_
    rw [Shape.arguments, Shape.arguments, ht]
  | string value span =>
    rw [Spelling.arguments] at hl
    have hs := hw.begins (P := (· = .string)) hl (.letter fun c hc => hc.1)
    rw [hs]
    refine .take hw hl fun w' hw' hl' hc => .pure hw' hl' ?_
    rw [Shape.arguments, Shape.arguments, ← hc.2]
    rfl

/-- The parser of primaries gets to a primary whose suffixes may go on. -/
def ReachesPrimary (inner : Level) (w : Window) (M : Language Letter) (p : Primary) : Prop :=
  ∃ p' w', Grammar.primary inner w = loop (Grammar.suffixStep inner) p' w' ∧ w'.Ready ∧
    w'.letters ∈ M ∧ Shape.primary p' = Shape.primary p

theorem ReachesPrimary.step {M M' : Language Letter} {p q : Primary} (h : inner.Complete depth)
    (hp : ReachesPrimary inner w M p)
    (hstep : ∀ p' w', w'.Ready → w'.letters ∈ M → Shape.primary p' = Shape.primary p →
      (Grammar.suffixStep inner p').Gives w' M'
        fun r => ∃ q', r = .inl q' ∧ Shape.primary q' = Shape.primary q) :
    ReachesPrimary inner w M' q := by
  obtain ⟨p', w', hrun, hw', hl', hp'⟩ := hp
  obtain ⟨q', w'', hrun', hrest⟩ :=
    Gives.loop_goesOn (Local.suffixStep_local h.isLocal) hw' (hstep p' w' hw' hl' hp')
  exact ⟨q', w'', hrun.trans hrun', hrest⟩

theorem reaches_head {M : Language Letter} {p : Primary}
    (hp : (Grammar.primaryHead inner).Gives w M fun p' => Shape.primary p' = Shape.primary p) :
    ReachesPrimary inner w M p := by
  obtain ⟨p', w', hrun, hrest⟩ := hp
  refine ⟨p', w', ?_, hrest⟩
  rw [Grammar.primary, bind_apply, hrun]
  rfl

theorem suffixStep_arguments {M : Language Letter} {p p' : Primary} {a : Arguments} {span : Span}
    (h : inner.Complete depth) (hw : w.Ready) (hl : w.letters ∈ Spelling.arguments a * M)
    (ha : Everywhere.arguments grammatical a) (hneed : Need.arguments a ≤ depth)
    (hp : Shape.primary p' = Shape.primary p) :
    (Grammar.suffixStep inner p').Gives w M fun r =>
      ∃ q', r = .inl q' ∧ Shape.primary q' = Shape.primary (.call (.function p a span)) := by
  have harguments : Gives (do
      let args ← Grammar.arguments inner
      return .inl (.call (.function p' args (Span.between p'.span args.span))) :
      Parse (Primary ⊕ Primary)) w M fun r =>
        ∃ q', r = .inl q' ∧ Shape.primary q' = Shape.primary (.call (.function p a span)) := by
    refine (arguments_gives h hw hl ha hneed).bind fun a' w' hw' hl' ha => .pure hw' hl' ?_
    exact ⟨_, rfl, by rw [Shape.primary, Shape.primary, Shape.call, Shape.call, hp, ha]⟩
  refine .symbol ?_
  rcases hw.begins hl (begins_arguments a M) with hs | hs | hs <;> rw [hs] <;> exact harguments

mutual

theorem primary_reaches (h : inner.Complete depth) (p : Primary) {M : Language Letter}
    (hw : w.Ready) (hl : w.letters ∈ Spelling.primary p * M)
    (hp : Everywhere.primary grammatical p) (hneed : Need.primary p ≤ depth) :
    ReachesPrimary inner w M p :=
  match p with
  | .var v => by
    rw [Spelling.primary] at hl
    exact target_reaches h v hw hl hp hneed
  | .call c => by
    rw [Spelling.primary] at hl
    exact call_reaches h c hw hl hp hneed
  | .parenthesized e span => by
    rw [Spelling.primary, mul_assoc, mul_assoc] at hl
    rw [Need.primary] at hneed
    refine reaches_head (.symbol ?_)
    rw [hw.symbol hl]
    refine .take hw hl fun w' hw' hl' _ => ?_
    refine (expression_gives h hw' hl' hp (by omega) (.symbol (.of_delimiter rfl rfl))).bind
      fun e' w'' hw'' hl'' he => ?_
    refine .expectClosing hw'' hl'' fun closing w' hw' hl' => .pure hw' hl' ?_
    rw [Shape.primary, Shape.primary, he]

theorem target_reaches (h : inner.Complete depth) (v : Variable) {M : Language Letter}
    (hw : w.Ready) (hl : w.letters ∈ Spelling.target v * M)
    (hv : Everywhere.target grammatical v) (hneed : Need.target v ≤ depth) :
    ReachesPrimary inner w M (.var v) :=
  match v with
  | .name n => by
    rw [Spelling.target] at hl
    refine reaches_head (.symbol ?_)
    rw [hw.begins (P := (· = .name)) hl (.name rfl)]
    refine .expectName hw hl fun n' w' hw' hl' hn => .pure hw' hl' ?_
    rw [Shape.primary, Shape.primary, Shape.target, Shape.target, Shape.name, Shape.name, hn]
  | .index base key span => by
    rw [Spelling.target] at hl
    simp only [mul_assoc] at hl
    rw [Need.target, Nat.max_le] at hneed
    refine (primary_reaches h base hw hl hv.1 hneed.1).step h fun p' w' hw' hl' hp => .symbol ?_
    rw [hw'.symbol hl']
    refine .take hw' hl' fun w'' hw'' hl'' _ => ?_
    refine (expression_gives h hw'' hl'' hv.2 (by omega) (.symbol (.of_delimiter rfl rfl))).bind
      fun key' w' hw' hl' hkey => ?_
    refine .expect hw' hl' fun closing w'' hw'' hl'' => .pure hw'' hl'' ⟨_, rfl, ?_⟩
    rw [Shape.primary, Shape.primary, Shape.target, Shape.target, hp, hkey]
  | .member base n span => by
    rw [Spelling.target, mul_assoc, mul_assoc] at hl
    refine (primary_reaches h base hw hl hv.1 hneed).step h fun p' w' hw' hl' hp => .symbol ?_
    rw [hw'.symbol hl']
    refine .take hw' hl' fun w'' hw'' hl'' _ => ?_
    refine .expectName hw'' hl'' fun n' w' hw' hl' hn => .pure hw' hl' ⟨_, rfl, ?_⟩
    rw [Shape.primary, Shape.primary, Shape.target, Shape.target, Shape.name, Shape.name, hp, hn]

theorem call_reaches (h : inner.Complete depth) (c : Call) {M : Language Letter}
    (hw : w.Ready) (hl : w.letters ∈ Spelling.call c * M)
    (hc : Everywhere.call grammatical c) (hneed : Need.call c ≤ depth) :
    ReachesPrimary inner w M (.call c) :=
  match c with
  | .function callee args span => by
    rw [Spelling.call, mul_assoc] at hl
    rw [Need.call, Nat.max_le] at hneed
    exact (primary_reaches h callee hw hl hc.1 hneed.1).step h fun p' w' hw' hl' hp =>
      suffixStep_arguments h hw' hl' hc.2 hneed.2 hp
  | .method receiver n args span => by
    rw [Spelling.call] at hl
    simp only [mul_assoc] at hl
    rw [Need.call, Nat.max_le] at hneed
    refine (primary_reaches h receiver hw hl hc.1 hneed.1).step h
      fun p' w' hw' hl' hp => .symbol ?_
    rw [hw'.symbol hl']
    refine .take hw' hl' fun w'' hw'' hl'' _ => ?_
    refine .expectName hw'' hl'' fun n' w' hw' hl' hn => ?_
    refine (arguments_gives h hw' hl' hc.2.2 hneed.2).bind
      fun a' w'' hw'' hl'' ha => .pure hw'' hl'' ⟨_, rfl, ?_⟩
    rw [Shape.primary, Shape.primary, Shape.call, Shape.call, Shape.name, Shape.name, hp, hn, ha]

end

theorem primary_gives {p : Primary} (h : inner.Complete depth) (hw : w.Ready)
    (hl : w.letters ∈ Spelling.primary p * R) (hp : Everywhere.primary grammatical p)
    (hneed : Need.primary p ≤ depth) (hR : Begins R (·.beginsSuffix = false)) :
    (Grammar.primary inner).Gives w R fun p' => Shape.primary p' = Shape.primary p := by
  obtain ⟨p', w', hrun, hw', hl', hp'⟩ := primary_reaches h p hw hl hp hneed
  refine .congr (q := fun _ => loop (Grammar.suffixStep inner) p' w') ?_ hrun
  have hsuffix := hw'.begins hl' hR
  refine Gives.loop_ends (Local.suffixStep_local h.isLocal) hw' (.symbol ?_)
  split
  all_goals first
    | exact .pure hw' hl' ⟨_, rfl, hp'⟩
    | next hs =>
      rw [hs] at hsuffix
      cases hsuffix

/-! ## Operands -/

theorem number_gives {value : Double} {span : Span} (hw : w.Ready)
    (hl : w.letters ∈ Spelling.number value * R) :
    (Grammar.number : Parse _).Gives w R fun e =>
      Shape.expression e = Shape.expression (.number value span) := by
  obtain ⟨-, -, ⟨-, hvalue⟩, -⟩ := hw.take hl
  have hvalue : Numeral.value? w.current.content = some value := hvalue
  refine .current ?_
  rw [content_bind, hvalue]
  refine .take hw hl fun w' hw' hl' _ => .pure hw' hl' ?_
  rw [Shape.expression, Shape.expression]

theorem simpleOperand_gives {e : Expression} (h : inner.Complete depth)
    (hbinary : e.isBinary = false) (hw : w.Ready) (hl : w.letters ∈ Spelling.expression e * R)
    (he : Everywhere.expression grammatical e) (hneed : Need.expression e ≤ depth)
    (hR : Begins R e.Precedes) :
    (Grammar.simpleOperand inner).Gives w R fun e' =>
      Shape.expression e' = Shape.expression e := by
  refine .current ?_
  cases e with
  | nil span =>
    rw [Spelling.expression] at hl
    rw [hw.symbol hl]
    exact .take hw hl fun w' hw' hl' _ => .pure hw' hl' rfl
  | boolean value span =>
    rw [Spelling.expression] at hl
    rw [hw.symbol hl]
    cases value <;> exact .take hw hl fun w' hw' hl' _ => .pure hw' hl' rfl
  | varargs span =>
    rw [Spelling.expression] at hl
    rw [hw.symbol hl]
    exact .take hw hl fun w' hw' hl' _ => .pure hw' hl' rfl
  | number value span =>
    rw [Spelling.expression] at hl
    rw [hw.begins (P := (· = .number)) hl (.letter fun c hc => hc.1)]
    exact number_gives hw hl
  | string value span =>
    rw [Spelling.expression] at hl
    rw [hw.begins (P := (· = .string)) hl (.letter fun c hc => hc.1)]
    refine .take hw hl fun w' hw' hl' hc => .pure hw' hl' ?_
    rw [Shape.expression, Shape.expression, ← hc.2]
    rfl
  | function body span =>
    rw [Spelling.expression, mul_assoc] at hl
    rw [hw.symbol hl]
    refine .take hw hl fun w' hw' hl' _ => ?_
    refine (functionBody_gives h hw' hl' he.2 hneed _).bind fun f' w'' hw'' hl'' hf =>
      .pure hw'' hl'' ?_
    rw [Shape.expression, Shape.expression, hf]
  | table t =>
    rw [Spelling.expression] at hl
    rw [hw.begins hl (begins_table t R)]
    refine (table_gives h hw hl he.2 hneed).bind fun t' w' hw' hl' ht => .pure hw' hl' ?_
    rw [Shape.expression, Shape.expression, ht]
  | primary p =>
    rw [Spelling.expression] at hl
    have hprimary : Gives (do return .primary (← Grammar.primary inner)) w R
        fun e' => Shape.expression e' = Shape.expression (.primary p) := by
      refine (primary_gives h hw hl he.2 hneed (hR.mono fun s hs => hs.suffix rfl)).bind
        fun p' w' hw' hl' hp => .pure hw' hl' ?_
      rw [Shape.expression, Shape.expression, hp]
    rcases hw.begins hl (begins_primary p R) with hs | ⟨hs, -⟩ <;> rw [hs] <;> exact hprimary
  | unary op operand span =>
    rw [Spelling.expression, mul_assoc] at hl
    rw [hw.symbol hl, UnaryOperator.ofSymbol?_symbol]
    rw [Need.expression] at hneed
    refine .take hw hl fun w' hw' hl' _ => ?_
    refine (h.operand (by decide) hw' hl' he.2 he.1 (by omega) (hR.mono fun s hs => ?_)).bind
      fun e' w'' hw'' hl'' he' => .pure hw'' hl'' ?_
    · exact ⟨fun op' hop' => Nat.not_lt.1 (of_decide_eq_false (hs.operator op' hop')), hs.suffix⟩
    · rw [Shape.expression, Shape.expression, he']
  | binary op left right span => cases hbinary

/-- An operand that no operator stands in is got to at once. -/
theorem simpleOperand_reaches {limit : Nat} {e : Expression} {M : Language Letter}
    (h : inner.Complete depth) (hbinary : e.isBinary = false) (hw : w.Ready)
    (hl : w.letters ∈ Spelling.expression e * M) (he : Everywhere.expression grammatical e)
    (hneed : Need.expression e ≤ depth) (hM : Begins M e.Precedes) :
    ∃ e' w', Grammar.operand inner limit w = loop (Grammar.operatorStep inner limit) e' w' ∧
      w'.Ready ∧ w'.letters ∈ M ∧ Shape.expression e' = Shape.expression e := by
  obtain ⟨e', w', hrun, hrest⟩ := simpleOperand_gives h hbinary hw hl he hneed hM
  refine ⟨e', w', ?_, hrest⟩
  rw [Grammar.operand, bind_apply, hrun]
  rfl

/-- The parser of operands gets to an operand that operators may go on with. -/
theorem operand_reaches {limit : Nat} (h : inner.Complete depth) (e : Expression)
    {M : Language Letter} (hw : w.Ready) (hl : w.letters ∈ Spelling.expression e * M)
    (he : Everywhere.expression grammatical e) (hlimit : e.needsParensBehind limit = false)
    (hneed : Need.expression e ≤ depth) (hM : Begins M e.Precedes) :
    ∃ e' w', Grammar.operand inner limit w = loop (Grammar.operatorStep inner limit) e' w' ∧
      w'.Ready ∧ w'.letters ∈ M ∧ Shape.expression e' = Shape.expression e :=
  match e with
  | .binary op left right span => by
    rw [Spelling.expression, mul_assoc, mul_assoc] at hl
    rw [Need.expression, Nat.max_le] at hneed
    obtain ⟨⟨hbefore, hbehind⟩, hleft, hright⟩ := he
    have hpower : limit < op.leftPower := Nat.not_le.1 (of_decide_eq_false hlimit)
    have hleftLimit : left.needsParensBehind limit = false := by
      cases left with
      | binary op' left' right' span' =>
        have hle := Nat.not_lt.1 (of_decide_eq_false hbefore)
        have hpowers := op'.rightPower_le_leftPower
        exact decide_eq_false (by omega)
      | _ => rfl
    obtain ⟨left', w', hrun, hw', hl', hleft'⟩ :=
      operand_reaches h left hw hl hleft hleftLimit hneed.1 (.symbol
        ⟨fun op' hop' => by
          rw [BinaryOperator.ofSymbol?_symbol] at hop'
          cases hop'
          exact hbefore, fun _ => by cases op <;> rfl⟩)
    have hstep : (Grammar.operatorStep inner limit left').Gives w' M fun r =>
        ∃ e', r = .inl e' ∧ Shape.expression e' = Shape.expression (.binary op left right span) := by
      refine .symbol ?_
      rw [hw'.symbol hl', BinaryOperator.ofSymbol?_symbol]
      dsimp only
      rw [if_neg (Nat.not_le.2 hpower)]
      refine .take hw' hl' fun w'' hw'' hl'' _ => ?_
      refine (h.operand (by cases op <;> decide) hw'' hl'' hright hbehind (by omega)
        (hM.mono fun s hs => ?_)).bind fun right' w' hw' hl' hright' =>
          .pure hw' hl' ⟨_, rfl, ?_⟩
      · exact ⟨fun op' hop' => Nat.not_lt.1 (of_decide_eq_false (hs.operator op' hop')), hs.suffix⟩
      · rw [Shape.expression, Shape.expression, hleft', hright']
    obtain ⟨e', w'', hrun', hrest⟩ :=
      Gives.loop_goesOn (Local.operatorStep_local h.isLocal limit) hw' hstep
    exact ⟨e', w'', hrun.trans hrun', hrest⟩
  | .nil _ | .boolean _ _ | .number _ _ | .string _ _ | .varargs _ | .function _ _ | .primary _
  | .table _ | .unary _ _ _ => simpleOperand_reaches h rfl hw hl he hneed hM

theorem operand_gives {limit : Nat} {e : Expression} (h : inner.Complete depth)
    (hlimit : limit ≤ 9) (hw : w.Ready) (hl : w.letters ∈ Spelling.expression e * R)
    (he : Everywhere.expression grammatical e) (hparens : e.needsParensBehind limit = false)
    (hneed : Need.expression e < depth + 1) (hR : Begins R (e.StopsAt limit)) :
    (Grammar.operand inner limit).Gives w R fun e' =>
      Shape.expression e' = Shape.expression e := by
  obtain ⟨e', w', hrun, hw', hl', he'⟩ := operand_reaches h e hw hl he hparens
    (Nat.le_of_lt_succ hneed) (hR.mono fun s hs => hs.precedes hlimit hparens)
  refine .congr (q := fun _ => loop (Grammar.operatorStep inner limit) e' w') ?_ hrun
  have hstop := hw'.begins hl' hR
  refine Gives.loop_ends (Local.operatorStep_local h.isLocal limit) hw' (.symbol ?_)
  split
  · next op hop =>
    rw [if_pos (hstop.operator op hop)]
    exact .pure hw' hl' ⟨_, rfl, he'⟩
  · exact .pure hw' hl' ⟨_, rfl, he'⟩

end Give

end LuaSource
