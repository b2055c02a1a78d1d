-- SUMMARY: What the parsers of expressions, of calls and indexes and of functions read.
import LuaSource.Grammar.Statement
import LuaSource.Proofs.Grammar.Rules
import LuaSource.Proofs.Tree.Conditions
import LuaSource.Proofs.Tree.Need

/-!
# Reading expressions

Each production reads a spelling of its result, whose operators are grouped as their powers
say, if the level inside it does. Behind an operand, no operator follows that the limit would
let in, and no suffix follows that the operand would go on with.
-/

namespace LuaSource

/-! ## Where operands stop -/

/-- Whether a symbol begins a member, an index or arguments. -/
def Symbol.beginsSuffix : Symbol → Bool
  | dot | leftBracket | colon | leftParen | string | leftBrace => true
  | _ => false

theorem Symbol.beginsSuffix_eq_false {s : Symbol} (h₁ : s = .dot → False)
    (h₂ : s = .leftBracket → False) (h₃ : s = .colon → False) (h₄ : s = .leftParen → False)
    (h₅ : s = .string → False) (h₆ : s = .leftBrace → False) : s.beginsSuffix = false := by
  unfold Symbol.beginsSuffix
  split <;> simp_all

/-- Whether an operand that is read with a limit can have a symbol behind it. -/
structure Expression.StopsAt (limit : Nat) (e : Expression) (s : Symbol) : Prop where
  operator : ∀ op, BinaryOperator.ofSymbol? s = some op → op.leftPower ≤ limit
  suffix : e.endsOpen = true → s.beginsSuffix = false

/-- Any operand can have a symbol behind it that goes on with none. -/
theorem Expression.StopsAt.of_delimiter {limit : Nat} {e : Expression} {s : Symbol}
    (hop : BinaryOperator.ofSymbol? s = none) (hs : s.beginsSuffix = false) :
    e.StopsAt limit s where
  operator op h := by
    rw [hop] at h
    cases h
  suffix _ := hs

/-- Whether an operand can have a symbol behind it, and would stay the same with parentheses. -/
structure Expression.Precedes (e : Expression) (s : Symbol) : Prop where
  operator : ∀ op, BinaryOperator.ofSymbol? s = some op → e.needsParensBefore op = false
  suffix : e.endsOpen = true → s.beginsSuffix = false

theorem Expression.Precedes.of_closed {e : Expression} {s : Symbol}
    (hb : ∀ op, e.needsParensBefore op = false) (he : e.endsOpen = false) : e.Precedes s where
  operator op _ := hb op
  suffix h := by
    rw [he] at h
    cases h

/-! ## Levels -/

/-- What a level reads that is `depth` levels deep. -/
structure Level.Sound (inner : Level) (depth : Nat) : Prop where
  block : ∀ terminators w, w.Proper →
    (inner.block terminators).Meets w w Spelling.block (Everywhere.block sound)
      fun b _ => Need.block b ≤ depth
  operand : ∀ limit w, w.Proper →
    (inner.operand limit).Meets w w Spelling.expression
      (fun e => Everywhere.expression sound e ∧ e.needsParensBehind limit = false)
      fun e w' => Need.expression e < depth ∧ e.StopsAt limit w'.current.symbol

namespace Read

open Parse Parsing

variable {inner : Level} {depth : Nat} {w : Window}

/-! ## Plain trees -/

/-- There is a plain expression that can stand anywhere. -/
theorem plain_operand :
    ∃ e, (Everywhere.expression sound e ∧ ∀ limit, e.needsParensBehind limit = false) ∧
      HasPlain (Spelling.expression e) := by
  refine ⟨.nil default, ⟨⟨⟨trivial, trivial⟩, trivial⟩, fun _ => rfl⟩, ?_⟩
  rw [Spelling.expression]
  exact .symbol rfl

theorem plain_expression (limit : Nat) :
    ∃ e, (Everywhere.expression sound e ∧ e.needsParensBehind limit = false) ∧
      HasPlain (Spelling.expression e) := by
  obtain ⟨e, ⟨he, hlimit⟩, hp⟩ := plain_operand
  exact ⟨e, ⟨he, hlimit limit⟩, hp⟩

theorem plain_value : ∃ e, Everywhere.expression sound e ∧ HasPlain (Spelling.expression e) := by
  obtain ⟨e, he, hp⟩ := plain_expression 0
  exact ⟨e, he.1, hp⟩

theorem plain_expressions :
    ∃ es, (es ≠ [] ∧ Everywhere.expressions sound es) ∧ HasPlain (Spelling.expressions es) := by
  obtain ⟨e, he, hp⟩ := plain_value
  refine ⟨[e], ⟨List.cons_ne_nil _ _, he, trivial⟩, ?_⟩
  rwa [Spelling.expressions, Spelling.moreExpressions, mul_one]

theorem plain_block : ∃ b, Everywhere.block sound b ∧ HasPlain (Spelling.block b) := by
  refine ⟨⟨[], default⟩, ⟨?_, trivial⟩, [], ?_, isPlain_nil⟩
  · intro s hs
    cases hs
  · rw [Spelling.block, Spelling.statements, mul_one]
    exact Language.nil_mem_kstar _

theorem plain_table : ∃ t, Everywhere.table sound t ∧ HasPlain (Spelling.table t) := by
  refine ⟨⟨[], default⟩, trivial, ?_⟩
  rw [Spelling.table, Spelling.fields, mul_one]
  exact .mul (.symbol rfl) (.symbol rfl)

theorem plain_functionBody :
    ∃ f, Everywhere.functionBody sound f ∧ HasPlain (Spelling.functionBody f) := by
  obtain ⟨b, hb, hp⟩ := plain_block
  refine ⟨⟨[], false, b, default⟩, ⟨?_, hb⟩, ?_⟩
  · intro n hn
    cases hn
  · rw [Spelling.functionBody, Spelling.parameters, mul_one]
    exact .mul (.mul (.mul (.symbol rfl) (.symbol rfl)) hp) (.symbol rfl)

theorem plain_name : ∃ n : Name, IsName n.text ∧ HasPlain (Spelling.name n) :=
  ⟨⟨"x", default⟩, isName_x, .name⟩

theorem expression_meets (h : inner.Sound depth) (hw : w.Proper) :
    (Grammar.expression inner).Meets w w Spelling.expression (Everywhere.expression sound)
      fun e w' => Need.expression e < depth ∧ e.StopsAt 0 w'.current.symbol :=
  (h.operand 0 w hw).mono (fun _ he => he.1) fun _ _ _ he => he

/-! ## Lists of expressions -/

theorem expressionList_meets (h : inner.Sound depth) (hw : w.Proper) :
    (Grammar.expressionList inner).Meets w w Spelling.expressions
      (fun es => es ≠ [] ∧ Everywhere.expressions sound es)
      fun es w' => Need.expressions es ≤ depth ∧
        (∀ e ∈ es.getLast?, e.StopsAt 0 w'.current.symbol) ∧ w'.current.symbol ≠ .comma := by
  have hlist := commaList_meets (fun w hw => expression_meets h hw) plain_value hw
  rw [← funext Spelling.expressions_eq] at hlist
  refine hlist.mono ?_ ?_
  · rintro es ⟨hne, hes⟩
    exact ⟨hne, Everywhere.expressions_iff.2 hes⟩
  · rintro es w' - ⟨hneed, hstop⟩
    exact ⟨Need.expressions_le_iff.2 hneed, hstop⟩

/-- Values up to a symbol that cannot begin one. -/
theorem values_eq {es : List Expression} (hes : es ≠ []) :
    Spelling.values es = Spelling.expressions es := by
  cases es with
  | nil => exact absurd rfl hes
  | cons e es => rw [Spelling.values, Spelling.expressions]

/-! ## Functions -/

/-- The words before a parameter. -/
def beforeParameter : List Name → Language Letter
  | [] => 1
  | n :: ns => Spelling.names (n :: ns) * Spelling.symbol .comma

theorem beforeParameter_mul_name (ns : List Name) (n : Name) :
    beforeParameter ns * Spelling.name n = Spelling.names (ns ++ [n]) := by
  cases ns with
  | nil => simp [beforeParameter, Spelling.names, Spelling.list, Spelling.series]
  | cons m ns =>
    simp only [beforeParameter, List.cons_append, Spelling.names, Spelling.list,
      Spelling.series_concat, mul_assoc]

theorem beforeParameter_mul_ellipsis (ns : List Name) :
    beforeParameter ns * Spelling.symbol .ellipsis = Spelling.parameters ns true := by
  cases ns with
  | nil => rw [beforeParameter, Spelling.parameters, one_mul]
  | cons n ns => rw [beforeParameter, Spelling.parameters]

theorem parameters_eq {ns : List Name} (hns : ns ≠ []) :
    Spelling.parameters ns false = Spelling.names ns := by
  cases ns with
  | nil => exact absurd rfl hns
  | cons n ns => rw [Spelling.parameters]

theorem beforeParameter_eq {ns : List Name} (hns : ns ≠ []) :
    beforeParameter ns = Spelling.names ns * Spelling.symbol .comma := by
  cases ns with
  | nil => exact absurd rfl hns
  | cons n ns => rw [beforeParameter]

theorem parameters_meets (hw : w.Proper) :
    (loop Grammar.parameterStep [] : Parse _).Meets w w (fun r => Spelling.parameters r.1 r.2)
      (fun r => Everywhere.names sound r.1) fun _ _ => True := by
  refine Follows.start (Φ := fun _ => True)
    (.loop (I := fun ns => beforeParameter ns.reverse) (G := fun ns => Everywhere.names sound ns)
      (Ψ := fun _ _ => True) ?_ ?_ ?_) hw trivial
  · intro n hn
    cases hn
  · intro ns hns
    have hK : beforeParameter ns.reverse * Spelling.symbol .ellipsis
        ≤ Spelling.parameters ns.reverse true := (beforeParameter_mul_ellipsis _).le
    refine .of_mul (.symbol (s := .ellipsis) rfl) (.of_le (a := (ns.reverse, true)) hK ?_)
    exact fun n hn => hns n (List.mem_reverse.1 hn)
  · intro ns w' hns hr _
    have hrev : Everywhere.names sound ns.reverse := fun n hn => hns n (List.mem_reverse.1 hn)
    refine Follows.meets (Φ := fun _ => True) (.accept (by decide) (fun t => ?_) ?_) w' hr trivial
    · exact .pure (beforeParameter_mul_ellipsis _).le hrev fun _ _ => trivial
    · refine .expectName fun n hn => ?_
      have hall : Everywhere.names sound (n :: ns) := List.forall_mem_cons.2 ⟨hn, hns⟩
      have hne : (n :: ns).reverse ≠ [] := by simp
      have heq := beforeParameter_mul_name ns.reverse n
      rw [← List.reverse_cons] at heq
      refine .accept (by decide) (fun t => ?_) ?_
      · refine .pure ?_ hall fun _ _ => trivial
        rw [heq]
        exact (beforeParameter_eq hne).ge
      · refine .pure ?_ (fun m hm => hall m (List.mem_reverse.1 hm)) fun _ _ => trivial
        rw [heq]
        exact (parameters_eq hne).ge

theorem functionBody_meets (h : inner.Sound depth) (hw : w.Proper) (line : Nat) :
    (Grammar.functionBody inner line).Meets w w Spelling.functionBody
      (Everywhere.functionBody sound) fun f _ => Need.functionBody f ≤ depth := by
  have hnil : Everywhere.names sound [] := by
    intro n hn
    cases hn
  refine Follows.start (Φ := fun _ => True) ?_ hw trivial
  refine .expect rfl fun opening => ?_
  -- Both ways of reading parameters go on in the same way.
  have hrest : ∀ (Φ : Window → Prop) (r : List Name × Bool), Everywhere.names sound r.1 →
      Follows (do
        let _ ← expect .rightParen
        let body ← inner.block [.kwEnd]
        let closing ← expectClosing .kwEnd .kwFunction line
        return (⟨r.1, r.2, body, Span.between opening.span closing.span⟩ : FunctionBody))
      w (1 * Spelling.symbol .leftParen * Spelling.parameters r.1 r.2) Φ Spelling.functionBody
      (Everywhere.functionBody sound) fun f _ => Need.functionBody f ≤ depth := by
    intro Φ r hr
    refine .expect rfl fun _ => ?_
    refine .bind (fun w hw _ => h.block _ w hw) plain_block fun b hb => ?_
    refine .expectClosing rfl fun closing => ?_
    refine .pure ?_ ⟨hr, hb⟩ ?_
    · simp only [Spelling.functionBody, one_mul, mul_assoc, le_refl]
    · rintro w ⟨-, hneed, -⟩
      exact hneed
  refine .symbol fun s => ?_
  by_cases hs : s = .rightParen
  · rw [if_pos hs, pure_bind]
    rw [← mul_one (1 * Spelling.symbol .leftParen)]
    exact hrest _ ([], false) hnil
  · rw [if_neg hs]
    exact .bind (fun w hw _ => parameters_meets hw) ⟨([], false), hnil, .one⟩ fun r hr =>
      hrest _ r hr

/-! ## Tables -/

theorem field_meets (h : inner.Sound depth) (hw : w.Proper) :
    (Grammar.field inner).Meets w w Spelling.field (Everywhere.field sound)
      fun f _ => Need.field f ≤ depth := by
  refine Follows.start (Φ := fun _ => True) ?_ hw trivial
  have hpositional : ∀ (Φ : Window → Prop),
      (do return .positional (← Grammar.expression inner) : Parse Field).Follows w 1 Φ
        Spelling.field (Everywhere.field sound) fun f _ => Need.field f ≤ depth := by
    intro Φ
    refine .bind (fun w hw _ => expression_meets h hw) plain_value fun value hv => ?_
    refine .pure ?_ hv ?_
    · rw [Spelling.field, one_mul]
    · rintro w ⟨⟨hneed, -⟩, -⟩
      rw [Need.field]
      omega
  refine .symbol fun s => ?_
  split
  · refine .take rfl (fun _ h => h.2) fun opening => ?_
    refine .bind (fun w hw _ => expression_meets h hw) plain_value fun key hk => ?_
    refine .expect rfl fun _ => ?_
    refine .expect rfl fun _ => ?_
    refine .bind (fun w hw _ => expression_meets h hw) plain_value fun value hv => ?_
    refine .pure ?_ ⟨hk, hv⟩ ?_
    · simp only [Spelling.field, one_mul, mul_assoc, le_refl]
    · rintro w ⟨⟨hneed, -⟩, -, -, -, ⟨hkey, -⟩, -⟩
      rw [Need.field]
      omega
  · refine .followingSymbol fun next => ?_
    split
    · next hnext =>
      refine .bind (F := fun _ w' => w'.current.symbol = .assign) (fun w hw hΦ => ?_) plain_name
        fun name hn => ?_
      · refine (expectName_meets hw).mono (fun _ h => h) fun _ w' _ hc => ?_
        rw [hc, hΦ.2, hnext]
      · refine .take rfl (fun _ h => h.1) fun _ => ?_
        refine .bind (fun w hw _ => expression_meets h hw) plain_value fun value hv => ?_
        refine .pure ?_ ⟨hn, hv⟩ ?_
        · simp only [Spelling.field, one_mul, mul_assoc, le_refl]
        · rintro w ⟨⟨hneed, -⟩, -⟩
          rw [Need.field]
          omega
    · exact hpositional _
  · exact hpositional _

theorem acceptSeparator_meets (hw : w.Proper) :
    (Grammar.acceptSeparator : Parse _).Meets w w
      (fun b => if b then Spelling.fieldSeparator else 1)
      (fun _ => True) fun _ _ => True := by
  refine Follows.start (Φ := fun _ => True) ?_ hw trivial
  refine .accept (by decide) (fun t => ?_) ?_
  · refine .pure ?_ trivial fun _ _ => trivial
    rw [one_mul, if_pos rfl, Spelling.fieldSeparator]
    exact le_self_add
  · refine .accept (by decide) (fun t => ?_) ?_
    · refine .pure ?_ trivial fun _ _ => trivial
      rw [one_mul, Option.isSome_some, if_pos rfl, Spelling.fieldSeparator]
      exact le_add_self
    · exact .pure le_rfl trivial fun _ _ => trivial

/-- The words before a field. -/
def beforeField : List Field → Language Letter
  | [] => 1
  | f :: fs => Spelling.field f * Spelling.fieldSeparator * beforeField fs

theorem beforeField_append (fs gs : List Field) :
    beforeField (fs ++ gs) = beforeField fs * beforeField gs := by
  induction fs with
  | nil => rw [List.nil_append, beforeField, one_mul]
  | cons f fs ih => simp only [List.cons_append, beforeField, ih, mul_assoc]

theorem beforeField_concat (fs : List Field) (f : Field) :
    beforeField (fs ++ [f]) = beforeField fs * Spelling.field f * Spelling.fieldSeparator := by
  rw [beforeField_append, beforeField, beforeField, mul_one, mul_assoc]

theorem one_le_moreFields_nil : 1 ≤ Spelling.moreFields [] := by
  rw [Spelling.moreFields]
  exact le_self_add

theorem fieldSeparator_mul_beforeField_le (fs : List Field) :
    Spelling.fieldSeparator * beforeField fs ≤ Spelling.moreFields fs := by
  induction fs with
  | nil =>
    rw [beforeField, Spelling.moreFields, mul_one]
    exact le_add_self
  | cons f fs ih =>
    rw [beforeField, Spelling.moreFields, mul_assoc (Spelling.field f), ← mul_assoc]
    exact mul_le_mul_right ih _

/-- A separator may stand behind the last field. -/
theorem beforeField_le (fs : List Field) : beforeField fs ≤ Spelling.fields fs := by
  cases fs with
  | nil => rw [beforeField, Spelling.fields]
  | cons f fs =>
    rw [beforeField, Spelling.fields, mul_assoc]
    exact mul_le_mul_right (fieldSeparator_mul_beforeField_le fs) _

theorem fieldSeparator_mul_beforeField_mul_field_le (fs : List Field) (f : Field) :
    Spelling.fieldSeparator * (beforeField fs * Spelling.field f)
      ≤ Spelling.moreFields (fs ++ [f]) := by
  induction fs with
  | nil =>
    rw [beforeField, one_mul, List.nil_append, Spelling.moreFields]
    exact le_mul_of_one_le_right' one_le_moreFields_nil
  | cons g fs ih =>
    rw [beforeField, List.cons_append, Spelling.moreFields]
    simp only [mul_assoc] at ih ⊢
    exact mul_le_mul_right (mul_le_mul_right ih _) _

theorem beforeField_mul_field_le (fs : List Field) (f : Field) :
    beforeField fs * Spelling.field f ≤ Spelling.fields (fs ++ [f]) := by
  cases fs with
  | nil =>
    rw [beforeField, one_mul, List.nil_append, Spelling.fields]
    exact le_mul_of_one_le_right' one_le_moreFields_nil
  | cons g fs =>
    rw [beforeField, List.cons_append, Spelling.fields, mul_assoc, mul_assoc]
    exact mul_le_mul_right (fieldSeparator_mul_beforeField_mul_field_le fs f) _

theorem fields_meets (h : inner.Sound depth) (hw : w.Proper) :
    (loop (Grammar.fieldStep inner) []).Meets w w Spelling.fields (Everywhere.fields sound)
      fun fs _ => Need.fields fs ≤ depth := by
  have hd : ∃ f, Everywhere.field sound f ∧ HasPlain (Spelling.field f) := by
    obtain ⟨e, he, hp⟩ := plain_value
    exact ⟨.positional e, he, by rwa [Spelling.field]⟩
  refine Follows.start (Φ := fun _ => ∀ f ∈ ([] : List Field), Need.field f ≤ depth)
    (.loop (I := fun fs : List Field => beforeField fs.reverse)
      (G := fun fs => Everywhere.fields sound fs.reverse)
      (Ψ := fun fs _ => ∀ f ∈ fs, Need.field f ≤ depth) trivial ?_ ?_) hw (by simp)
  · intro fs hfs
    exact .of_le (beforeField_le fs.reverse) hfs
  · intro fs w' hfs hr hneed
    refine Follows.meets (Φ := fun _ => ∀ f ∈ fs, Need.field f ≤ depth) ?_ w' hr hneed
    refine .symbol fun s => ?_
    split
    · refine .pure (beforeField_le _) hfs fun _ hΦ => ?_
      exact Need.fields_le_iff.2 fun f hf => hneed f (List.mem_reverse.1 hf)
    · refine .bind (fun w hw _ => field_meets h hw) hd fun f hf => ?_
      have hall : Everywhere.fields sound (f :: fs).reverse := by
        rw [Everywhere.fields_iff] at hfs ⊢
        simpa [or_imp, forall_and] using ⟨fun g hg => hfs g (List.mem_reverse.2 hg), hf⟩
      refine .bind (fun w hw _ => acceptSeparator_meets hw) ⟨false, trivial, .one⟩ fun b _ => ?_
      cases b with
      | true =>
        refine .pure ?_ hall ?_
        · show _ ≤ beforeField (f :: fs).reverse
          rw [List.reverse_cons, beforeField_concat, if_pos rfl]
        · rintro w ⟨-, -, hf, -⟩
          show ∀ g ∈ f :: fs, Need.field g ≤ depth
          simpa using ⟨hf, hneed⟩
      | false =>
        refine .pure ?_ hall ?_
        · show _ ≤ Spelling.fields (f :: fs).reverse
          rw [if_neg (by decide), mul_one, List.reverse_cons]
          exact beforeField_mul_field_le _ f
        · rintro w ⟨-, -, hf, -⟩
          refine Need.fields_le_iff.2 ?_
          simpa [or_imp, forall_and] using ⟨hneed, hf⟩

theorem table_meets (h : inner.Sound depth) (hw : w.Proper) :
    (Grammar.table inner).Meets w w Spelling.table (Everywhere.table sound)
      fun t _ => Need.table t ≤ depth := by
  refine Follows.start (Φ := fun _ => True) ?_ hw trivial
  refine .expect rfl fun opening => ?_
  refine .bind (fun w hw _ => fields_meets h hw) ⟨[], trivial, ?_⟩ fun fs hfs => ?_
  · rw [Spelling.fields]
    exact .one
  · refine .expectClosing rfl fun closing => ?_
    refine .pure ?_ hfs ?_
    · simp only [Spelling.table, one_mul, mul_assoc, le_refl]
    · rintro w ⟨-, hneed, -⟩
      exact hneed

/-! ## Calls and indexes -/

theorem plain_arguments : ∃ a, Everywhere.arguments sound a ∧ HasPlain (Spelling.arguments a) := by
  refine ⟨.list [] default, trivial, ?_⟩
  rw [Spelling.arguments, Spelling.values, mul_one]
  refine .mul ⟨[Letter.ofSymbol .leftParen], ⟨_, ⟨rfl, rfl⟩, rfl⟩, ?_⟩ (.symbol rfl)
  exact isPlain_ofSymbol rfl

theorem arguments_meets (h : inner.Sound depth) (hw : w.Proper) :
    (Grammar.arguments inner).Meets w w Spelling.arguments (Everywhere.arguments sound)
      fun a _ => Need.arguments a ≤ depth := by
  have hd : Completes 1 Spelling.arguments (Everywhere.arguments sound) := .of_plain plain_arguments
  refine Follows.start (Φ := fun _ => True) ?_ hw trivial
  refine .symbol fun s => ?_
  split
  · refine .onSameLine fun joined => ?_
    cases joined with
    | false => exact .fail hd
    | true =>
      refine .takeLetter (p := fun _ c => c.symbol = .leftParen ∧ c.joined = true) hd ?_
        fun opening => ?_
      · rintro w ⟨⟨-, hs⟩, hj⟩
        exact ⟨by simp [hs], hs, hj⟩
      · have hrest : ∀ (Φ : Window → Prop) (es : List Expression),
            Everywhere.expressions sound es → (∀ w, Φ w → Need.expressions es ≤ depth) →
            Follows (do
              let closing ← expectClosing .rightParen .leftParen opening.span.start.line
              return .list es (Span.between opening.span closing.span))
            w (1 * Spelling.argumentParen * Spelling.values es) Φ Spelling.arguments
            (Everywhere.arguments sound) fun a _ => Need.arguments a ≤ depth := by
          intro Φ es hes hneed
          refine .expectClosing rfl fun closing => ?_
          refine .pure ?_ hes ?_
          · simp only [Spelling.arguments, one_mul, mul_assoc, le_refl]
          · rintro w ⟨w', hΦ⟩
            exact hneed w' hΦ
        refine .symbol fun s => ?_
        by_cases hs : s = .rightParen
        · rw [if_pos hs, pure_bind, ← mul_one (1 * Spelling.letter _)]
          exact hrest _ [] trivial fun _ _ => Nat.zero_le _
        · rw [if_neg hs]
          refine .bind (fun w hw _ => expressionList_meets h hw) plain_expressions fun es hes => ?_
          rw [← values_eq hes.1]
          exact hrest _ es hes.2 fun w hΦ => hΦ.1.1
  · refine .bind (fun w hw _ => table_meets h hw) plain_table fun t ht => ?_
    refine .pure ?_ ht ?_
    · rw [Spelling.arguments, one_mul]
    · rintro w ⟨hneed, -⟩
      exact hneed
  · refine .takeLetter (p := fun t c => c.symbol = .string ∧ c.content = t.content) hd ?_
      fun t => ?_
    · rintro w ⟨-, hs⟩
      exact ⟨by simp [hs], hs, rfl⟩
    · refine .pure ?_ trivial fun _ _ => Nat.zero_le _
      rw [Spelling.arguments, one_mul, Spelling.string]
  · exact .fail hd

/-- What is read as a primary from a window on. A parenthesis at its beginning is the current
token there. -/
def PrimaryFrom (w : Window) (p : Primary) : Prop :=
  Everywhere.primary sound p ∧ (p.startsWithParen = true → w.current.symbol = .leftParen)

theorem plain_primary (w : Window) : ∃ p, PrimaryFrom w p ∧ HasPlain (Spelling.primary p) := by
  obtain ⟨n, hn, hp⟩ := plain_name
  refine ⟨.var (.name n), ⟨hn, ?_⟩, by rwa [Spelling.primary, Spelling.target]⟩
  intro h
  cases h

theorem primaryHead_meets (h : inner.Sound depth) (hw : w.Proper) :
    (Grammar.primaryHead inner).Meets w w Spelling.primary
      (PrimaryFrom w)
      fun p _ => Need.primary p ≤ depth := by
  refine .symbol ?_
  split
  · next hs =>
    refine Follows.start (Φ := fun _ => True) ?_ hw trivial
    refine .expectName fun n hn => ?_
    refine .pure ?_ ⟨hn, fun hp => by cases hp⟩ fun _ _ => Nat.zero_le _
    rw [Spelling.primary, Spelling.target, one_mul]
  · next hs =>
    refine Follows.start (Φ := fun w => w.current.symbol = .leftParen) ?_ hw hs
    refine .take rfl (fun _ h => h) fun opening => ?_
    refine .bind (fun w hw _ => expression_meets h hw) plain_value fun e he => ?_
    refine .expectClosing rfl fun closing => ?_
    refine .pure ?_ ⟨he, fun _ => hs⟩ ?_
    · simp only [Spelling.primary, one_mul, mul_assoc, le_refl]
    · rintro w ⟨-, ⟨hneed, -⟩, -⟩
      show 1 + Need.expression e ≤ depth
      omega
  · exact fail_meets (plain_primary w) hw

/-- One more suffix leaves the beginning as it is. -/
theorem suffixStep_meets {w₀ : Window} {p : Primary} (h : inner.Sound depth)
    (hp : PrimaryFrom w₀ p)
    (hr : w₀.Reads (Spelling.primary p) w) (hneed : Need.primary p ≤ depth) :
    (Grammar.suffixStep inner p).Meets w₀ w (Sum.elim Spelling.primary Spelling.primary)
      (Sum.elim (PrimaryFrom w₀) (PrimaryFrom w₀))
      (Sum.elim (fun p _ => Need.primary p ≤ depth)
        (fun p w' => Need.primary p ≤ depth ∧ w'.current.symbol.beginsSuffix = false)) := by
  obtain ⟨hp, hparen⟩ := hp
  -- Arguments of each form go on with the primary in the same way.
  have harguments : ∀ (Φ : Window → Prop),
      (do
        let args ← Grammar.arguments inner
        return .inl (.call (.function p args (Span.between p.span args.span))) :
        Parse (Primary ⊕ Primary)).Follows w₀ (Spelling.primary p) Φ
      (Sum.elim Spelling.primary Spelling.primary)
      (Sum.elim (PrimaryFrom w₀) (PrimaryFrom w₀))
      (Sum.elim (fun p _ => Need.primary p ≤ depth)
        (fun p w' => Need.primary p ≤ depth ∧ w'.current.symbol.beginsSuffix = false)) := by
    intro Φ
    refine .bind (fun w hw _ => arguments_meets h hw) plain_arguments fun args ha => ?_
    refine .pure ?_ ⟨⟨hp, ha⟩, hparen⟩ ?_
    · rw [Sum.elim_inl, Spelling.primary, Spelling.call]
    · rintro w ⟨ha, -⟩
      exact Nat.max_le.2 ⟨hneed, ha⟩
  refine .symbol ?_
  split
  · next hs =>
    refine Follows.meets (Φ := fun w => w.current.symbol = .dot) ?_ w hr hs
    refine .take rfl (fun _ h => h) fun _ => ?_
    refine .expectName fun n hn => ?_
    refine .pure ?_ ⟨⟨hp, hn⟩, hparen⟩ fun _ _ => hneed
    rw [Sum.elim_inl, Spelling.primary, Spelling.target]
  · next hs =>
    refine Follows.meets (Φ := fun w => w.current.symbol = .leftBracket) ?_ w hr hs
    refine .take rfl (fun _ h => h) fun _ => ?_
    refine .bind (fun w hw _ => expression_meets h hw) plain_value fun key hk => ?_
    refine .expect rfl fun closing => ?_
    refine .pure ?_ ⟨⟨hp, hk⟩, hparen⟩ ?_
    · rw [Sum.elim_inl, Spelling.primary, Spelling.target]
    · rintro w ⟨-, ⟨hk, -⟩, -⟩
      exact Nat.max_le.2 ⟨hneed, by omega⟩
  · next hs =>
    refine Follows.meets (Φ := fun w => w.current.symbol = .colon) ?_ w hr hs
    refine .take rfl (fun _ h => h) fun _ => ?_
    refine .expectName fun n hn => ?_
    refine .bind (fun w hw _ => arguments_meets h hw) plain_arguments fun args ha => ?_
    refine .pure ?_ ⟨⟨hp, hn, ha⟩, hparen⟩ ?_
    · rw [Sum.elim_inl, Spelling.primary, Spelling.call]
    · rintro w ⟨ha, -⟩
      exact Nat.max_le.2 ⟨hneed, ha⟩
  · exact (harguments fun _ => True).meets w hr trivial
  · exact (harguments fun _ => True).meets w hr trivial
  · exact (harguments fun _ => True).meets w hr trivial
  · next h₁ h₂ h₃ h₄ h₅ h₆ =>
    refine Follows.meets (Φ := fun w' => w' = w) ?_ w hr rfl
    refine .pure le_rfl ⟨hp, hparen⟩ ?_
    rintro w rfl
    exact ⟨hneed, Symbol.beginsSuffix_eq_false h₁ h₂ h₃ h₄ h₅ h₆⟩

theorem primary_meets (h : inner.Sound depth) (hw : w.Proper) :
    (Grammar.primary inner).Meets w w Spelling.primary
      (PrimaryFrom w)
      fun p w' => Need.primary p ≤ depth ∧ w'.current.symbol.beginsSuffix = false := by
  refine Follows.start (Φ := fun w' => w' = w) ?_ hw rfl
  refine .bind (F := fun p _ => Need.primary p ≤ depth) ?_ (plain_primary w) fun p hp => ?_
  · rintro w hw rfl
    exact primaryHead_meets h hw
  · rw [one_mul]
    refine (Follows.loop (I := Spelling.primary) (Ψ := fun p _ => Need.primary p ≤ depth) hp
      (fun p hp => .of_le le_rfl hp) ?_).mono fun _ hΦ => hΦ.1
    intro p w' hp hr hneed
    exact suffixStep_meets h hp hr hneed

/-! ## Operands -/

theorem number_meets (hw : w.Proper) (hs : w.current.symbol = .number) :
    (Grammar.number : Parse _).Meets w w Spelling.expression
      (fun e => Everywhere.expression sound e ∧ ∀ limit, e.needsParensBehind limit = false)
      fun e w' => Need.expression e ≤ depth ∧ e.Precedes w'.current.symbol := by
  have hne : w.current.symbol ≠ .eof := by simp [hs]
  refine .current ?_
  rw [content_bind]
  split
  · next value hvalue =>
    have hsign := (hw.sound_current hne).unsigned hs value hvalue
    refine .take (p := fun c => c.symbol = .number ∧ Numeral.value? c.content = some value)
      (.refl hw) hne ⟨hs, hvalue⟩ fun w' hr => ?_
    refine Follows.meets (Φ := fun _ => True) (.pure ?_ ⟨⟨⟨trivial, hsign⟩, trivial⟩, fun _ => rfl⟩
      fun _ _ => ⟨Nat.zero_le _, .of_closed (fun _ => rfl) rfl⟩) w' hr trivial
    rw [Spelling.expression, one_mul, Spelling.number]
  · exact fail_meets plain_operand hw

/-- A primary is an operand that takes no parentheses anywhere. -/
theorem primaryOperand_meets (h : inner.Sound depth) (hw : w.Proper) :
    (do return .primary (← Grammar.primary inner) : Parse _).Meets w w
      Spelling.expression
      (fun e => Everywhere.expression sound e ∧ ∀ limit, e.needsParensBehind limit = false)
      fun e w' => Need.expression e ≤ depth ∧ e.Precedes w'.current.symbol := by
  refine Follows.start (Φ := fun w' => w' = w) ?_ hw rfl
  refine .bind (F := fun p w' => Need.primary p ≤ depth ∧ w'.current.symbol.beginsSuffix = false)
    ?_ (plain_primary w) fun p hp => ?_
  · rintro w hw rfl
    exact primary_meets h hw
  · refine .pure ?_ ⟨⟨⟨trivial, trivial⟩, hp.1⟩, fun _ => rfl⟩ ?_
    · rw [Spelling.expression, one_mul]
    · rintro w ⟨⟨hneed, hsuffix⟩, -⟩
      exact ⟨hneed, fun _ _ => rfl, fun _ => hsuffix⟩

/-- An operand that is written as one symbol. -/
theorem constant_meets {s : Symbol} {e : Span → Expression} (hs : s.isWritten = true)
    (hw : w.Proper) (h : w.current.symbol = s)
    (hN : ∀ span, Spelling.expression (e span) = Spelling.symbol s)
    (hQ : ∀ span, Everywhere.expression sound (e span) ∧
      ∀ limit, (e span).needsParensBehind limit = false)
    (hS : ∀ span s, Need.expression (e span) ≤ depth ∧ (e span).Precedes s) :
    (do return e (← consume).span : Parse _).Meets w w Spelling.expression
      (fun e => Everywhere.expression sound e ∧ ∀ limit, e.needsParensBehind limit = false)
      fun e w' => Need.expression e ≤ depth ∧ e.Precedes w'.current.symbol := by
  refine Follows.start (Φ := fun w => w.current.symbol = s) ?_ hw h
  refine .take hs (fun _ h => h) fun t => ?_
  refine .pure ?_ (hQ _) fun w _ => hS _ _
  rw [hN, one_mul]

theorem simpleOperand_meets (h : inner.Sound depth) (hw : w.Proper) :
    (Grammar.simpleOperand inner).Meets w w Spelling.expression
      (fun e => Everywhere.expression sound e ∧ ∀ limit, e.needsParensBehind limit = false)
      fun e w' => Need.expression e ≤ depth ∧ e.Precedes w'.current.symbol := by
  refine .current ?_
  split
  · next op hop =>
    have hs : w.current.symbol = op.symbol := (UnaryOperator.symbol_of_ofSymbol? hop).symm
    have hwritten : op.symbol.isWritten = true := by cases op <;> rfl
    refine Follows.start (Φ := fun w => w.current.symbol = op.symbol) ?_ hw hs
    refine .take hwritten (fun _ h => h) fun _ => ?_
    refine .bind (fun w hw _ => h.operand _ w hw) (plain_expression _) fun e he => ?_
    refine .pure ?_ ⟨⟨⟨he.2, trivial⟩, he.1⟩, fun _ => rfl⟩ ?_
    · rw [Spelling.expression, one_mul]
    · rintro w ⟨⟨hneed, hstop⟩, -⟩
      refine ⟨?_, ?_, hstop.suffix⟩
      · rw [Need.expression]
        omega
      · intro op' hop'
        exact decide_eq_false (Nat.not_lt.2 (hstop.operator op' hop'))
  · split
    · next hs =>
      exact constant_meets rfl hw hs (fun _ => by rw [Spelling.expression])
        (fun _ => ⟨⟨⟨trivial, trivial⟩, trivial⟩, fun _ => rfl⟩)
        fun _ _ => ⟨Nat.zero_le _, .of_closed (fun _ => rfl) rfl⟩
    · next hs =>
      exact constant_meets rfl hw hs (fun _ => by rw [Spelling.expression, if_pos rfl])
        (fun _ => ⟨⟨⟨trivial, trivial⟩, trivial⟩, fun _ => rfl⟩)
        fun _ _ => ⟨Nat.zero_le _, .of_closed (fun _ => rfl) rfl⟩
    · next hs =>
      exact constant_meets rfl hw hs (fun _ => by rw [Spelling.expression, if_neg (by decide)])
        (fun _ => ⟨⟨⟨trivial, trivial⟩, trivial⟩, fun _ => rfl⟩)
        fun _ _ => ⟨Nat.zero_le _, .of_closed (fun _ => rfl) rfl⟩
    · next hs =>
      exact constant_meets rfl hw hs (fun _ => by rw [Spelling.expression])
        (fun _ => ⟨⟨⟨trivial, trivial⟩, trivial⟩, fun _ => rfl⟩)
        fun _ _ => ⟨Nat.zero_le _, .of_closed (fun _ => rfl) rfl⟩
    · next hs => exact number_meets hw hs
    · next hs =>
      refine Follows.start (Φ := fun w' => w'.current = w.current) ?_ hw rfl
      refine .takeLetter (p := fun _ c => c.symbol = .string ∧ c.content = w.current.content)
        (.of_plain plain_operand) ?_ fun t => ?_
      · intro w' hw'
        exact ⟨by simp [hw', hs], by rw [← hs, ← hw']; rfl, by rw [← hw']; rfl⟩
      · refine .pure ?_ ⟨⟨⟨trivial, trivial⟩, trivial⟩, fun _ => rfl⟩
          fun _ _ => ⟨Nat.zero_le _, .of_closed (fun _ => rfl) rfl⟩
        rw [Spelling.expression, one_mul, Spelling.string]
    · next hs =>
      refine Follows.start (Φ := fun w => w.current.symbol = .kwFunction) ?_ hw hs
      refine .take rfl (fun _ h => h) fun _ => ?_
      refine .bind (fun w hw _ => functionBody_meets h hw _) plain_functionBody fun f hf => ?_
      refine .pure ?_ ⟨⟨⟨trivial, trivial⟩, hf⟩, fun _ => rfl⟩ ?_
      · rw [Spelling.expression, one_mul]
      · rintro w ⟨hneed, -⟩
        exact ⟨hneed, .of_closed (fun _ => rfl) rfl⟩
    · next hs =>
      refine Follows.start (Φ := fun _ => True) ?_ hw trivial
      refine .bind (fun w hw _ => table_meets h hw) plain_table fun t ht => ?_
      refine .pure ?_ ⟨⟨⟨trivial, trivial⟩, ht⟩, fun _ => rfl⟩ ?_
      · rw [Spelling.expression, one_mul]
      · rintro w ⟨hneed, -⟩
        exact ⟨hneed, .of_closed (fun _ => rfl) rfl⟩
    · exact primaryOperand_meets h hw
    · exact primaryOperand_meets h hw
    · exact fail_meets plain_operand hw

/-- One more operator, which takes up the operand to its left. -/
theorem operatorStep_meets {w₀ : Window} {left : Expression} {limit : Nat} (h : inner.Sound depth)
    (hleft : Everywhere.expression sound left ∧ left.needsParensBehind limit = false)
    (hr : w₀.Reads (Spelling.expression left) w)
    (hneed : Need.expression left ≤ depth ∧ left.Precedes w.current.symbol) :
    (Grammar.operatorStep inner limit left).Meets w₀ w
      (Sum.elim Spelling.expression Spelling.expression)
      (Sum.elim (fun e => Everywhere.expression sound e ∧ e.needsParensBehind limit = false)
        fun e => Everywhere.expression sound e ∧ e.needsParensBehind limit = false)
      (Sum.elim (fun e w' => Need.expression e ≤ depth ∧ e.Precedes w'.current.symbol)
        fun e w' => Need.expression e < depth + 1 ∧ e.StopsAt limit w'.current.symbol) := by
  obtain ⟨hneed, hprecedes⟩ := hneed
  refine .symbol ?_
  split
  · next op hop =>
    split
    · next hle =>
      refine Follows.meets (Φ := fun w' => w' = w) ?_ w hr rfl
      refine .pure le_rfl hleft ?_
      rintro w rfl
      refine ⟨Nat.lt_succ_of_le hneed, ?_, hprecedes.suffix⟩
      intro op' hop'
      rw [hop] at hop'
      cases hop'
      exact hle
    · next hlt =>
      have hs : w.current.symbol = op.symbol := (BinaryOperator.symbol_of_ofSymbol? hop).symm
      have hwritten : op.symbol.isWritten = true := by cases op <;> rfl
      refine Follows.meets (Φ := fun w => w.current.symbol = op.symbol) ?_ w hr hs
      refine .take hwritten (fun _ h => h) fun _ => ?_
      refine .bind (fun w hw _ => h.operand _ w hw) (plain_expression _) fun right hright => ?_
      refine .pure ?_ ⟨⟨⟨⟨hprecedes.operator op hop, hright.2⟩, trivial⟩, hleft.1, hright.1⟩, ?_⟩ ?_
      · rw [Sum.elim_inl, Spelling.expression]
      · exact decide_eq_false hlt
      · rintro w ⟨⟨hneed', hstop⟩, -⟩
        refine ⟨Nat.max_le.2 ⟨hneed, by omega⟩, ?_, hstop.suffix⟩
        intro op' hop'
        exact decide_eq_false (Nat.not_lt.2 (hstop.operator op' hop'))
  · next hop =>
    refine Follows.meets (Φ := fun w' => w' = w) ?_ w hr rfl
    refine .pure le_rfl hleft ?_
    rintro w rfl
    refine ⟨Nat.lt_succ_of_le hneed, ?_, hprecedes.suffix⟩
    intro op' hop'
    rw [hop] at hop'
    cases hop'

theorem operand_meets (h : inner.Sound depth) (hw : w.Proper) (limit : Nat) :
    (Grammar.operand inner limit).Meets w w Spelling.expression
      (fun e => Everywhere.expression sound e ∧ e.needsParensBehind limit = false)
      fun e w' => Need.expression e < depth + 1 ∧ e.StopsAt limit w'.current.symbol := by
  refine Follows.start (Φ := fun _ => True) ?_ hw trivial
  refine .bind (fun w hw _ => simpleOperand_meets h hw) plain_operand fun e he => ?_
  rw [one_mul]
  refine (Follows.loop (I := Spelling.expression)
    (G := fun e => Everywhere.expression sound e ∧ e.needsParensBehind limit = false)
    (Ψ := fun e w => Need.expression e ≤ depth ∧ e.Precedes w.current.symbol)
    ⟨he.1, he.2 limit⟩ (fun e he => .of_le le_rfl he) ?_).mono fun _ hΦ => hΦ.1
  intro left w' hleft hr hneed
  exact operatorStep_meets h hleft hr hneed

end Read

end LuaSource
