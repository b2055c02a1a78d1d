-- SUMMARY: What the parsers of statements and blocks read, and so a level of any depth.
import LuaSource.Proofs.Grammar.ReadExpression

/-!
# Reading statements

A statement is read as one that others may follow, and a block as statements of which the last
alone may be a `return` or a `break`. Before a parenthesis that begins a statement, a semicolon
has been read if the statement before it could have gone on with the parenthesis.
-/

namespace LuaSource.Read

open Parse Parsing

variable {inner : Level} {depth : Nat} {w w₀ : Window}

/-- What is read as a statement from a window on. A parenthesis at its beginning is the current
token there. -/
structure StatementFrom (w : Window) (s : Statement) : Prop where
  sound : Everywhere.statement sound s
  isLast : s.isLast = false
  paren : s.startsWithParen = true → w.current.symbol = .leftParen

/-- What is left behind a statement. -/
structure StatementUpTo (depth : Nat) (s : Statement) (w : Window) : Prop where
  need : Need.statement s ≤ depth
  suffix : s.endsOpen = true → w.current.symbol.beginsSuffix = false

theorem StatementFrom.of_keyword {s : Statement} (hs : Everywhere.statement LuaSource.sound s)
    (hlast : s.isLast = false) (hparen : s.startsWithParen = false) : StatementFrom w s where
  sound := hs
  isLast := hlast
  paren h := by
    rw [hparen] at h
    cases h

theorem StatementUpTo.of_closed {s : Statement} (hneed : Need.statement s ≤ depth)
    (hs : s.endsOpen = false) : StatementUpTo depth s w where
  need := hneed
  suffix h := by
    rw [hs] at h
    cases h

/-! ## Loops -/

theorem doBlock_meets (h : inner.Sound depth) (hw : w.Proper) (hs : w.current.symbol = .kwDo) :
    (Grammar.doBlock inner).Meets w w Spelling.statement (StatementFrom w)
      (StatementUpTo depth) := by
  refine Follows.start (Φ := fun w => w.current.symbol = .kwDo) ?_ hw hs
  refine .take rfl (fun _ h => h) fun opening => ?_
  refine .bind (fun w hw _ => h.block _ w hw) plain_block fun b hb => ?_
  refine .expectClosing rfl fun closing => ?_
  refine .pure ?_ (.of_keyword ⟨trivial, hb⟩ rfl rfl) ?_
  · simp only [Spelling.statement, one_mul, mul_assoc, le_refl]
  · rintro w ⟨-, hneed, -⟩
    exact .of_closed hneed rfl

theorem whileLoop_meets (h : inner.Sound depth) (hw : w.Proper)
    (hs : w.current.symbol = .kwWhile) :
    (Grammar.whileLoop inner).Meets w w Spelling.statement (StatementFrom w)
      (StatementUpTo depth) := by
  refine Follows.start (Φ := fun w => w.current.symbol = .kwWhile) ?_ hw hs
  refine .take rfl (fun _ h => h) fun opening => ?_
  refine .bind (fun w hw _ => expression_meets h hw) plain_value fun e he => ?_
  refine .expect rfl fun _ => ?_
  refine .bind (fun w hw _ => h.block _ w hw) plain_block fun b hb => ?_
  refine .expectClosing rfl fun closing => ?_
  refine .pure ?_ (.of_keyword ⟨trivial, he, hb⟩ rfl rfl) ?_
  · simp only [Spelling.statement, one_mul, mul_assoc, le_refl]
  · rintro w ⟨-, hb, -, -, ⟨he, -⟩, -⟩
    refine .of_closed ?_ rfl
    rw [Need.statement]
    omega

theorem repeatLoop_meets (h : inner.Sound depth) (hw : w.Proper)
    (hs : w.current.symbol = .kwRepeat) :
    (Grammar.repeatLoop inner).Meets w w Spelling.statement (StatementFrom w)
      (StatementUpTo depth) := by
  refine Follows.start (Φ := fun w => w.current.symbol = .kwRepeat) ?_ hw hs
  refine .take rfl (fun _ h => h) fun opening => ?_
  refine .bind (fun w hw _ => h.block _ w hw) plain_block fun b hb => ?_
  refine .expectClosing rfl fun closing => ?_
  refine .bind (fun w hw _ => expression_meets h hw) plain_value fun e he => ?_
  refine .pure ?_ (.of_keyword ⟨trivial, he, hb⟩ rfl rfl) ?_
  · simp only [Spelling.statement, one_mul, mul_assoc, le_refl]
  · rintro w ⟨⟨he, hstop⟩, -, -, hb, -⟩
    refine ⟨?_, hstop.suffix⟩
    rw [Need.statement]
    omega

/-! ## Conditions -/

theorem clause_meets (h : inner.Sound depth) (hw : w.Proper) (keyword : Span) :
    (Grammar.clause inner keyword).Meets w w Spelling.clause (Everywhere.clause sound)
      fun c _ => Need.clause c ≤ depth := by
  refine Follows.start (Φ := fun _ => True) ?_ hw trivial
  refine .bind (fun w hw _ => expression_meets h hw) plain_value fun e he => ?_
  refine .expect rfl fun _ => ?_
  refine .bind (fun w hw _ => h.block _ w hw) plain_block fun b hb => ?_
  refine .pure ?_ ⟨he, hb⟩ ?_
  · simp only [Spelling.clause, one_mul, mul_assoc, le_refl]
  · rintro w ⟨hb, -, -, ⟨he, -⟩, -⟩
    rw [Need.clause]
    omega

theorem plain_clause : ∃ c, Everywhere.clause sound c ∧ HasPlain (Spelling.clause c) := by
  obtain ⟨e, he, hp⟩ := plain_value
  obtain ⟨b, hb, hq⟩ := plain_block
  refine ⟨⟨e, b, default⟩, ⟨he, hb⟩, ?_⟩
  rw [Spelling.clause]
  exact .mul (.mul hp (.symbol rfl)) hq

/-- The clauses behind a first one. -/
theorem moreClauses_meets (h : inner.Sound depth) (hw : w.Proper) (first : Clause) :
    (separated .kwElseif (fun keyword => Grammar.clause inner keyword.span) first).Meets w w
      (fun cs => Spelling.moreClauses cs.tail)
      (fun cs => cs.head? = some first ∧ ∀ c ∈ cs.tail, Everywhere.clause sound c)
      fun cs _ => ∀ c ∈ cs.tail, Need.clause c ≤ depth := by
  have hitem : ∀ (t : Token) (w : Window), w.Proper →
      (Grammar.clause inner t.span).Meets w w Spelling.clause (Everywhere.clause sound)
        fun c _ => Need.clause c ≤ depth ∧ True := by
    intro t w hw
    exact (clause_meets h hw t.span).mono (fun _ h => h) fun _ _ _ hc => ⟨hc, trivial⟩
  have hs : Symbol.isWritten .kwElseif = true := rfl
  have hlist := separated_meets (F := fun _ _ => True) hs hitem plain_clause first hw trivial
  rw [← funext Spelling.moreClauses_eq] at hlist
  exact hlist.mono (fun _ h => h) fun _ _ _ h => h.1

theorem conditional_meets (h : inner.Sound depth) (hw : w.Proper) (hs : w.current.symbol = .kwIf) :
    (Grammar.conditional inner).Meets w w Spelling.statement (StatementFrom w)
      (StatementUpTo depth) := by
  refine Follows.start (Φ := fun w => w.current.symbol = .kwIf) ?_ hw hs
  refine .take rfl (fun _ h => h) fun opening => ?_
  refine .bind (fun w hw _ => clause_meets h hw _) plain_clause fun first hfirst => ?_
  refine .bind (fun w hw _ => moreClauses_meets h hw first) ⟨[first], ⟨rfl, by simp⟩, .one⟩
    fun cs hcs => ?_
  obtain ⟨hhead, htail⟩ := hcs
  obtain ⟨cs, rfl⟩ := List.head?_eq_some_iff.1 hhead
  have hclauses : Everywhere.clauses sound (first :: cs) :=
    ⟨hfirst, Everywhere.clauses_iff.2 htail⟩
  -- With `else` or without, the statement ends in the same way.
  have hrest : ∀ (Φ : Window → Prop) (otherwise : Option Block),
      Everywhere.otherwise sound otherwise →
      (∀ w, Φ w → Need.clauses (first :: cs) ≤ depth ∧ Need.otherwise otherwise ≤ depth) →
      Follows (do
        let closing ← expectClosing .kwEnd .kwIf opening.span.start.line
        return .conditional (first :: cs) otherwise (Span.between opening.span closing.span))
      w (1 * Spelling.symbol .kwIf * Spelling.clause first * Spelling.moreClauses cs *
        Spelling.otherwise otherwise) Φ
      Spelling.statement (StatementFrom w) (StatementUpTo depth) := by
    intro Φ otherwise hb hneed
    refine .expectClosing rfl fun closing => ?_
    refine .pure ?_ (.of_keyword ⟨List.cons_ne_nil _ _, hclauses, hb⟩ rfl rfl) ?_
    · rw [Spelling.statement, Spelling.clauses, one_mul]
    · rintro w ⟨w', hΦ⟩
      exact .of_closed (Nat.max_le.2 (hneed w' hΦ)) rfl
  refine .accept (by decide) (fun _ => ?_) ?_
  · dsimp only
    rw [bind_map_left]
    refine .bind (fun w hw _ => h.block _ w hw) plain_block fun b hb => ?_
    rw [mul_assoc _ (Spelling.symbol .kwElse)]
    refine hrest _ (some b) hb ?_
    rintro w ⟨hb, -, -, hcs, -, hc, -⟩
    exact ⟨Nat.max_le.2 ⟨hc, Need.clauses_le_iff.2 hcs⟩, hb⟩
  · dsimp only
    rw [pure_bind, ← mul_one (1 * _ * _ * _)]
    refine hrest _ none trivial ?_
    rintro w ⟨⟨hcs, -, hc, -⟩, -⟩
    exact ⟨Nat.max_le.2 ⟨hc, Need.clauses_le_iff.2 hcs⟩, Nat.zero_le _⟩

/-! ## Counting and iterating -/

theorem forBody_meets (h : inner.Sound depth) (hw : w.Proper) (line : Nat) :
    (Grammar.forBody inner line).Meets w w
      (fun r => Spelling.symbol .kwDo * Spelling.block r.1 * Spelling.symbol .kwEnd)
      (fun r => Everywhere.block sound r.1) fun r _ => Need.block r.1 ≤ depth := by
  refine Follows.start (Φ := fun _ => True) ?_ hw trivial
  refine .expect rfl fun _ => ?_
  refine .bind (fun w hw _ => h.block _ w hw) plain_block fun b hb => ?_
  refine .expectClosing rfl fun closing => ?_
  refine .pure ?_ hb ?_
  · rw [one_mul]
  · rintro w ⟨-, hneed, -⟩
    exact hneed

theorem plain_forBody : ∃ r : Block × Token, Everywhere.block sound r.1 ∧
    HasPlain (Spelling.symbol .kwDo * Spelling.block r.1 * Spelling.symbol .kwEnd) := by
  obtain ⟨b, hb, hp⟩ := plain_block
  exact ⟨(b, Token.eof .start), hb, .mul (.mul (.symbol rfl) hp) (.symbol rfl)⟩

/-- Behind `for` and a name, a loop that counts can be filled in. -/
theorem completes_for {n : Name} (hn : IsName n.text) :
    Completes (Spelling.symbol .kwFor * Spelling.name n) Spelling.statement
      (StatementFrom w₀) := by
  obtain ⟨e, he, hp⟩ := plain_value
  obtain ⟨⟨b, t⟩, hb, hq⟩ := plain_forBody
  refine .of_mul (.mul (.mul (.mul (.mul (.symbol (s := .assign) rfl) hp)
    (.symbol (s := .comma) rfl)) hp) hq) ?_
  refine .of_le (a := .numericFor n e e none b default) ?_
    (.of_keyword ⟨trivial, hn, he, he, trivial, hb⟩ rfl rfl)
  simp only [Spelling.statement, Spelling.step, one_mul, mul_assoc, le_refl]

theorem numericFor_follows {Φ : Window → Prop} (h : inner.Sound depth) (opening : Span) :
    (Grammar.numericFor inner opening).Follows w₀ (Spelling.symbol .kwFor) Φ
      Spelling.statement (StatementFrom w₀) (StatementUpTo depth) := by
  refine .expectName fun n hn => ?_
  refine .expect rfl fun _ => ?_
  refine .bind (fun w hw _ => expression_meets h hw) plain_value fun start hstart => ?_
  refine .expect rfl fun _ => ?_
  refine .bind (fun w hw _ => expression_meets h hw) plain_value fun limit hlimit => ?_
  -- With a step or without, the statement goes on in the same way.
  have hrest : ∀ (Φ : Window → Prop) (step : Option Expression),
      Everywhere.step sound step →
      (∀ w, Φ w → Need.expression start < depth ∧ Need.expression limit < depth ∧
        Need.step step ≤ depth) →
      Follows (Grammar.forBody inner opening.start.line >>= fun r =>
        pure (.numericFor n start limit step r.1 (Span.between opening r.2.span)))
      w₀ (Spelling.symbol .kwFor * Spelling.name n * Spelling.symbol .assign *
        Spelling.expression start * Spelling.symbol .comma * Spelling.expression limit *
        Spelling.step step) Φ
      Spelling.statement (StatementFrom w₀) (StatementUpTo depth) := by
    intro Φ step hstep hneed
    refine .bind (fun w hw _ => forBody_meets h hw _) plain_forBody fun r hb => ?_
    refine .pure ?_ (.of_keyword ⟨trivial, hn, hstart, hlimit, hstep, hb⟩ rfl rfl) ?_
    · simp only [Spelling.statement, mul_assoc, le_refl]
    · rintro w ⟨hb, w', hΦ⟩
      obtain ⟨hs, hl, he⟩ := hneed w' hΦ
      refine .of_closed ?_ rfl
      rw [Need.statement]
      omega
  refine .accept (by decide) (fun _ => ?_) ?_
  · dsimp only
    rw [bind_map_left]
    refine .bind (fun w hw _ => expression_meets h hw) plain_value fun step hstep => ?_
    rw [mul_assoc _ (Spelling.symbol .comma)]
    refine hrest _ (some step) hstep ?_
    rintro w ⟨⟨he, -⟩, -, -, ⟨hl, -⟩, -, -, ⟨hs, -⟩, -⟩
    exact ⟨hs, hl, by rw [Need.step]; omega⟩
  · dsimp only
    rw [pure_bind, ← mul_one (_ * _)]
    refine hrest _ none trivial ?_
    rintro w ⟨⟨⟨hl, -⟩, -, -, ⟨hs, -⟩, -⟩, -⟩
    exact ⟨hs, hl, Nat.zero_le _⟩

theorem names_meets (hw : w.Proper) :
    (commaList expectName : Parse _).Meets w w Spelling.names
      (fun ns => ns ≠ [] ∧ Everywhere.names sound ns) fun _ _ => True := by
  have hitem : ∀ w : Window, w.Proper →
      (expectName : Parse _).Meets w w Spelling.name (fun n => IsName n.text)
        fun _ _ => True ∧ True := by
    intro w hw
    exact (expectName_meets hw).mono (fun _ h => h) fun _ _ _ _ => ⟨trivial, trivial⟩
  exact (commaList_meets (B := fun _ => True) (F := fun _ _ => True) hitem plain_name hw).mono
    (fun _ h => h) fun _ _ _ _ => trivial

theorem plain_names : ∃ ns, (ns ≠ [] ∧ Everywhere.names sound ns) ∧ HasPlain (Spelling.names ns) := by
  obtain ⟨n, hn, hp⟩ := plain_name
  refine ⟨[n], ⟨List.cons_ne_nil _ _, fun m hm => List.mem_singleton.1 hm ▸ hn⟩, ?_⟩
  rwa [Spelling.names, Spelling.list, Spelling.series, mul_one]

theorem genericFor_follows {Φ : Window → Prop} (h : inner.Sound depth) (opening : Span) :
    (Grammar.genericFor inner opening).Follows w₀ (Spelling.symbol .kwFor) Φ
      Spelling.statement (StatementFrom w₀) (StatementUpTo depth) := by
  refine .bind (fun w hw _ => names_meets hw) plain_names fun ns hns => ?_
  refine .expect rfl fun _ => ?_
  refine .bind (fun w hw _ => expressionList_meets h hw) plain_expressions fun es hes => ?_
  refine .bind (fun w hw _ => forBody_meets h hw _) plain_forBody fun r hb => ?_
  refine .pure ?_ (.of_keyword ⟨⟨hns.1, hes.1⟩, hns.2, hes.2, hb⟩ rfl rfl) ?_
  · simp only [Spelling.statement, mul_assoc, le_refl]
  · rintro w ⟨hb, -, ⟨hes, -⟩, -⟩
    exact .of_closed (Nat.max_le.2 ⟨hes, hb⟩) rfl

/-- Where a name is the current token, expecting it is taking it. -/
theorem consume_bind_eq {α : Type} {p : Parse α} (hs : w.current.symbol = .name) :
    (consume >>= fun _ => p) w = (expectName >>= fun _ => p) w := by
  simp only [expectName, bind_assoc, pure_bind]
  rw [bind_apply, bind_apply, expect_of_eq hs]
  rfl

theorem forLoop_meets (h : inner.Sound depth) (hw : w.Proper) (hs : w.current.symbol = .kwFor) :
    (Grammar.forLoop inner).Meets w w Spelling.statement (StatementFrom w)
      (StatementUpTo depth) := by
  refine Follows.start (Φ := fun w => w.current.symbol = .kwFor) ?_ hw hs
  refine .take rfl (fun _ h => h) fun opening => ?_
  rw [one_mul]
  refine .symbol fun s => ?_
  split
  · next hs =>
    refine .followingSymbol fun next => ?_
    split
    · exact numericFor_follows h _
    · exact genericFor_follows h _
    · exact genericFor_follows h _
    · refine .congr (fun w hΦ => consume_bind_eq (hΦ.1.2.trans hs)) ?_
      refine .expectName fun n hn => ?_
      exact .fail (completes_for hn)
  · exact .fail (numericFor_follows (Φ := fun _ => True) h opening.span).completes

/-! ## Functions and local variables -/

/-- What is read as the name of a function. -/
structure IsFunctionName (f : FunctionName) : Prop where
  names : Everywhere.names sound f.path
  path : f.path ≠ []
  method : f.isMethod = true → 2 ≤ f.path.length

theorem functionName_meets (hw : w.Proper) :
    (Grammar.functionName : Parse _).Meets w w Spelling.functionName IsFunctionName
      fun _ _ => True := by
  have hitem : ∀ (_ : Token) (w : Window), w.Proper →
      (expectName : Parse _).Meets w w Spelling.name (fun n => IsName n.text)
        fun _ _ => True ∧ True := by
    intro _ w hw
    exact (expectName_meets hw).mono (fun _ h => h) fun _ _ _ _ => ⟨trivial, trivial⟩
  have hdot : Symbol.isWritten .dot = true := rfl
  refine Follows.start (Φ := fun _ => True) ?_ hw trivial
  refine .expectName fun first hfirst => ?_
  refine .bind (fun w hw _ => separated_meets (B := fun _ => True) (F := fun _ _ => True) hdot
    hitem plain_name first hw trivial) ⟨[first], ⟨rfl, by simp⟩, .one⟩ fun path hpath => ?_
  obtain ⟨hhead, htail⟩ := hpath
  obtain ⟨rest, rfl⟩ := List.head?_eq_some_iff.1 hhead
  have hnames : Everywhere.names sound (first :: rest) := List.forall_mem_cons.2 ⟨hfirst, htail⟩
  refine .accept (by decide) (fun _ => ?_) ?_
  · refine .expectName fun method hmethod => ?_
    refine .pure ?_ ⟨?_, by simp, by simp⟩ fun _ _ => trivial
    · rw [Spelling.functionName_method, one_mul]
      exact le_rfl
    · intro n hn
      rcases List.mem_append.1 hn with hn | hn
      · exact hnames n hn
      · exact List.mem_singleton.1 hn ▸ hmethod
  · refine .pure ?_ ⟨hnames, by simp, by simp⟩ fun _ _ => trivial
    rw [Spelling.functionName_function, one_mul]
    exact le_rfl

theorem plain_functionName : ∃ f, IsFunctionName f ∧ HasPlain (Spelling.functionName f) := by
  obtain ⟨n, hn, hp⟩ := plain_name
  refine ⟨⟨[n], false, default⟩, ⟨?_, List.cons_ne_nil _ _, by simp⟩, ?_⟩
  · exact fun m hm => List.mem_singleton.1 hm ▸ hn
  · rwa [Spelling.functionName_function, Spelling.path, Spelling.list, Spelling.series, mul_one]

theorem functionStatement_meets (h : inner.Sound depth) (hw : w.Proper)
    (hs : w.current.symbol = .kwFunction) :
    (Grammar.functionStatement inner).Meets w w Spelling.statement (StatementFrom w)
      (StatementUpTo depth) := by
  refine Follows.start (Φ := fun w => w.current.symbol = .kwFunction) ?_ hw hs
  refine .take rfl (fun _ h => h) fun opening => ?_
  refine .bind (fun w hw _ => functionName_meets hw) plain_functionName fun f hf => ?_
  refine .bind (fun w hw _ => functionBody_meets h hw _) plain_functionBody fun body hb => ?_
  refine .pure ?_ (.of_keyword ⟨⟨hf.path, hf.method⟩, hf.names, hb⟩ rfl rfl) ?_
  · rw [Spelling.statement, one_mul]
  · rintro w ⟨hneed, -⟩
    exact .of_closed hneed rfl

/-- What the last of some values leaves behind it, the values leave. -/
theorem endsOpen_getLast? {es : List Expression} {s : Symbol}
    (hstop : ∀ e ∈ es.getLast?, e.StopsAt 0 s) (h : es.getLast?.any Expression.endsOpen = true) :
    s.beginsSuffix = false := by
  cases hes : es.getLast? with
  | none =>
    rw [hes] at h
    cases h
  | some e =>
    rw [hes] at h
    exact (hstop e hes).suffix h

theorem localAssign_follows {Φ : Window → Prop} (h : inner.Sound depth) (opening : Span) :
    (Grammar.localAssign inner opening).Follows w₀ (Spelling.symbol .kwLocal) Φ
      Spelling.statement (StatementFrom w₀) (StatementUpTo depth) := by
  refine .bind (fun w hw _ => names_meets hw) plain_names fun ns hns => ?_
  refine .accept (by decide) (fun _ => ?_) ?_
  · dsimp only
    refine .bind (fun w hw _ => expressionList_meets h hw) plain_expressions fun es hes => ?_
    refine .pure ?_ (.of_keyword ⟨hns.1, hns.2, hes.2⟩ rfl rfl) ?_
    · cases es with
      | nil => exact absurd rfl hes.1
      | cons e es =>
        simp only [Spelling.statement, Spelling.assigned, Spelling.expressions, mul_assoc, le_refl]
    · rintro w ⟨⟨hneed, hstop, -⟩, -⟩
      exact ⟨hneed, endsOpen_getLast? hstop⟩
  · dsimp only
    rw [pure_bind]
    refine .pure ?_ (.of_keyword ⟨hns.1, hns.2, trivial⟩ rfl rfl) ?_
    · rw [Spelling.statement, Spelling.assigned, mul_one]
    · intro w _
      exact .of_closed (Nat.zero_le _) rfl

theorem localStatement_meets (h : inner.Sound depth) (hw : w.Proper)
    (hs : w.current.symbol = .kwLocal) :
    (Grammar.localStatement inner).Meets w w Spelling.statement (StatementFrom w)
      (StatementUpTo depth) := by
  refine Follows.start (Φ := fun w => w.current.symbol = .kwLocal) ?_ hw hs
  refine .take rfl (fun _ h => h) fun opening => ?_
  rw [one_mul]
  refine .accept (by decide) (fun _ => ?_) (localAssign_follows h _)
  refine .expectName fun n hn => ?_
  refine .bind (fun w hw _ => functionBody_meets h hw _) plain_functionBody fun body hb => ?_
  refine .pure ?_ (.of_keyword ⟨trivial, hn, hb⟩ rfl rfl) ?_
  · rw [Spelling.statement]
  · rintro w ⟨hneed, -⟩
    exact .of_closed hneed rfl

/-! ## Jumps -/

theorem labelStatement_meets (hw : w.Proper) (hs : w.current.symbol = .doubleColon) :
    (Grammar.labelStatement : Parse _).Meets w w Spelling.statement (StatementFrom w)
      (StatementUpTo depth) := by
  refine Follows.start (Φ := fun w => w.current.symbol = .doubleColon) ?_ hw hs
  refine .take rfl (fun _ h => h) fun opening => ?_
  refine .expectName fun n hn => ?_
  refine .expect rfl fun closing => ?_
  refine .pure ?_ (.of_keyword ⟨trivial, hn⟩ rfl rfl) fun _ _ => .of_closed (Nat.zero_le _) rfl
  rw [Spelling.statement, one_mul]

theorem jumpStatement_meets (hw : w.Proper) (hs : w.current.symbol = .kwGoto) :
    (Grammar.jumpStatement : Parse _).Meets w w Spelling.statement (StatementFrom w)
      (StatementUpTo depth) := by
  refine Follows.start (Φ := fun w => w.current.symbol = .kwGoto) ?_ hw hs
  refine .take rfl (fun _ h => h) fun opening => ?_
  refine .expectName fun n hn => ?_
  refine .pure ?_ (.of_keyword ⟨trivial, hn⟩ rfl rfl) fun _ _ => .of_closed (Nat.zero_le _) rfl
  rw [Spelling.statement, one_mul]

/-- What is read as the last statement of a block. -/
structure IsLastStatement (s : Statement) : Prop where
  sound : Everywhere.statement sound s
  isLast : s.isLast = true
  paren : s.startsWithParen = false

/-- A semicolon may stand behind it. -/
theorem IsLastStatement.accept_semicolon {s : Statement} {Φ : Window → Prop}
    {K : Language Letter} (hs : IsLastStatement s) (hK : K ≤ Spelling.statement s)
    (hneed : ∀ w, Φ w → Need.statement s ≤ depth) :
    (do let _ ← accept .semicolon; return s : Parse _).Follows w₀ K Φ
      (fun s => Spelling.statement s * Spelling.trail s) IsLastStatement
      fun s _ => Need.statement s ≤ depth := by
  have htrail : Spelling.trail s = 1 + Spelling.symbol .semicolon := by
    rw [Spelling.trail, if_pos hs.isLast]
  refine .accept (by decide) (fun _ => .pure ?_ hs ?_) (.pure ?_ hs ?_)
  · rw [htrail]
    exact mul_le_mul' hK le_add_self
  · rintro w ⟨w', hΦ⟩
    exact hneed w' hΦ
  · rw [htrail]
    exact hK.trans (le_mul_of_one_le_right' le_self_add)
  · rintro w ⟨hΦ, -⟩
    exact hneed w hΦ

theorem returnStatement_meets (h : inner.Sound depth) (hw : w.Proper)
    (hs : w.current.symbol = .kwReturn) :
    (Grammar.returnStatement inner).Meets w w
      (fun s => Spelling.statement s * Spelling.trail s) IsLastStatement
      fun s _ => Need.statement s ≤ depth := by
  refine Follows.start (Φ := fun w => w.current.symbol = .kwReturn) ?_ hw hs
  refine .take rfl (fun _ h => h) fun keyword => ?_
  rw [one_mul]
  refine .symbol fun s => ?_
  by_cases hs : s ∈ Grammar.endsValues
  · rw [if_pos hs, pure_bind]
    refine IsLastStatement.accept_semicolon ⟨⟨trivial, trivial⟩, rfl, rfl⟩ ?_
      fun _ _ => Nat.zero_le _
    rw [Spelling.statement, Spelling.values, mul_one]
  · rw [if_neg hs]
    refine .bind (fun w hw _ => expressionList_meets h hw) plain_expressions fun es hes => ?_
    refine IsLastStatement.accept_semicolon ⟨⟨trivial, hes.2⟩, rfl, rfl⟩ ?_ ?_
    · rw [Spelling.statement, values_eq hes.1]
    · rintro w ⟨⟨hneed, -⟩, -⟩
      exact hneed

theorem breakStatement_meets (hw : w.Proper) (hs : w.current.symbol = .kwBreak) :
    (Grammar.breakStatement : Parse _).Meets w w
      (fun s => Spelling.statement s * Spelling.trail s) IsLastStatement
      fun s _ => Need.statement s ≤ depth := by
  refine Follows.start (Φ := fun w => w.current.symbol = .kwBreak) ?_ hw hs
  refine .take rfl (fun _ h => h) fun keyword => ?_
  refine IsLastStatement.accept_semicolon ⟨⟨trivial, trivial⟩, rfl, rfl⟩ ?_
    fun _ _ => Nat.zero_le _
  rw [Spelling.statement, one_mul]

/-! ## Assignments and calls -/

/-- What is read as a target from a window on. -/
def TargetFrom (w : Window) (v : Variable) : Prop :=
  Everywhere.target sound v ∧ (v.startsWithParen = true → w.current.symbol = .leftParen)

/-- Any primary can be the beginning of a target. -/
theorem completes_target {p : Primary} (hp : PrimaryFrom w₀ p) :
    Completes (Spelling.primary p) Spelling.target (TargetFrom w₀) := by
  obtain ⟨n, hn, hq⟩ := plain_name
  refine .of_mul (.mul (.symbol (s := .dot) rfl) hq) ?_
  refine .of_le (a := .member p n default) ?_ ⟨⟨hp.1, hn⟩, hp.2⟩
  rw [Spelling.target, mul_assoc]

/-- Any primary can be what a statement calls. -/
theorem completes_call {p : Primary} (hp : PrimaryFrom w₀ p) :
    Completes (Spelling.primary p) Spelling.statement (StatementFrom w₀) := by
  obtain ⟨a, ha, hq⟩ := plain_arguments
  refine .of_mul hq ?_
  refine .of_le (a := .call (.function p a default)) ?_ ⟨⟨trivial, hp.1, ha⟩, rfl, hp.2⟩
  rw [Spelling.statement, Spelling.call]

theorem nextTarget_meets (h : inner.Sound depth) (hw : w.Proper) :
    (Grammar.nextTarget inner).Meets w w Spelling.target (TargetFrom w)
      fun v _ => Need.target v ≤ depth := by
  refine Follows.start (Φ := fun w' => w' = w) ?_ hw rfl
  refine .bind (F := fun p _ => Need.primary p ≤ depth) ?_ (plain_primary w) fun p hp => ?_
  · rintro w hw rfl
    exact (primary_meets h hw).mono (fun _ h => h) fun _ _ _ hp => hp.1
  rw [one_mul]
  cases p with
  | var v =>
    refine .pure ?_ hp fun w hΦ => hΦ.1
    rw [Spelling.primary]
  | call c => exact .fail (completes_target hp)
  | parenthesized e span => exact .fail (completes_target hp)

/-- The targets behind a first one. -/
theorem moreTargets_meets (h : inner.Sound depth) (hw : w.Proper) (first : Variable) :
    (separated .comma (fun _ => Grammar.nextTarget inner) first).Meets w w
      (fun vs => Spelling.moreTargets vs.tail)
      (fun vs => vs.head? = some first ∧ ∀ v ∈ vs.tail, Everywhere.target sound v)
      fun vs _ => ∀ v ∈ vs.tail, Need.target v ≤ depth := by
  have hitem : ∀ (_ : Token) (w : Window), w.Proper →
      (Grammar.nextTarget inner).Meets w w Spelling.target (Everywhere.target sound)
        fun v _ => Need.target v ≤ depth ∧ True := by
    intro _ w hw
    exact (nextTarget_meets h hw).mono (fun _ hv => hv.1) fun _ _ _ hv => ⟨hv, trivial⟩
  have hs : Symbol.isWritten .comma = true := rfl
  have hd : ∃ v, Everywhere.target sound v ∧ HasPlain (Spelling.target v) := by
    obtain ⟨n, hn, hp⟩ := plain_name
    exact ⟨.name n, hn, by rwa [Spelling.target]⟩
  have hlist := separated_meets (F := fun _ _ => True) hs hitem hd first hw trivial
  rw [← funext Spelling.moreTargets_eq] at hlist
  exact hlist.mono (fun _ h => h) fun _ _ _ h => h.1

theorem assign_follows {Φ : Window → Prop} {first : Variable} (h : inner.Sound depth)
    (hfirst : TargetFrom w₀ first) (hneed : ∀ w, Φ w → Need.target first ≤ depth) :
    (Grammar.assign inner first).Follows w₀ (Spelling.target first) Φ Spelling.statement
      (StatementFrom w₀) (StatementUpTo depth) := by
  refine .bind (fun w hw _ => moreTargets_meets h hw first) ⟨[first], ⟨rfl, by simp⟩, .one⟩
    fun vs hvs => ?_
  obtain ⟨hhead, htail⟩ := hvs
  obtain ⟨vs, rfl⟩ := List.head?_eq_some_iff.1 hhead
  have htargets : Everywhere.targets sound (first :: vs) :=
    ⟨hfirst.1, Everywhere.targets_iff.2 htail⟩
  refine .expect rfl fun _ => ?_
  refine .bind (fun w hw _ => expressionList_meets h hw) plain_expressions fun es hes => ?_
  refine .pure ?_ ⟨⟨⟨List.cons_ne_nil _ _, hes.1⟩, htargets, hes.2⟩, rfl, hfirst.2⟩ ?_
  · rw [Spelling.statement, Spelling.targets]
    exact le_rfl
  · rintro w ⟨⟨hes, hstop, -⟩, -, -, hvs, w', hΦ⟩
    refine ⟨Nat.max_le.2 ⟨Nat.max_le.2 ⟨hneed w' hΦ, ?_⟩, hes⟩, endsOpen_getLast? hstop⟩
    exact Need.targets_le_iff.2 hvs

theorem assignOrCall_meets (h : inner.Sound depth) (hw : w.Proper) :
    (Grammar.assignOrCall inner).Meets w w Spelling.statement (StatementFrom w)
      (StatementUpTo depth) := by
  refine Follows.start (Φ := fun w' => w' = w) ?_ hw rfl
  refine .bind (F := fun p w' => Need.primary p ≤ depth ∧ w'.current.symbol.beginsSuffix = false)
    ?_ (plain_primary w) fun p hp => ?_
  · rintro w hw rfl
    exact primary_meets h hw
  rw [one_mul]
  -- What stands before `=` or a comma has to be a target.
  have hassign : ∀ (Φ : Window → Prop), (∀ w, Φ w → Need.primary p ≤ depth) →
      (Grammar.target p >>= Grammar.assign inner).Follows w (Spelling.primary p) Φ
        Spelling.statement (StatementFrom w) (StatementUpTo depth) := by
    intro Φ hneed
    cases p with
    | var v =>
      rw [Spelling.primary]
      exact assign_follows h hp hneed
    | call c =>
      exact .congr (q := fail .invalidTarget) (fun _ _ => rfl) (.fail (completes_call hp))
    | parenthesized e span =>
      exact .congr (q := fail .invalidTarget) (fun _ _ => rfl) (.fail (completes_call hp))
  refine .symbol fun s => ?_
  split
  · exact hassign _ fun w hΦ => hΦ.1.1.1
  · exact hassign _ fun w hΦ => hΦ.1.1.1
  · split
    · refine .pure ?_ ⟨⟨trivial, hp.1⟩, rfl, hp.2⟩ ?_
      · rw [Spelling.primary, Spelling.statement]
      · rintro w ⟨⟨⟨hneed, hsuffix⟩, -⟩, -⟩
        exact ⟨hneed, fun _ => hsuffix⟩
    · exact .fail (completes_call hp)
    · exact .fail (completes_call hp)

/-! ## Statements and blocks -/

theorem statement_meets (h : inner.Sound depth) (hw : w.Proper) :
    (Grammar.statement inner).Meets w w Spelling.statement (StatementFrom w)
      (StatementUpTo depth) := by
  refine .symbol ?_
  split
  · next hs => exact conditional_meets h hw hs
  · next hs => exact whileLoop_meets h hw hs
  · next hs => exact doBlock_meets h hw hs
  · next hs => exact forLoop_meets h hw hs
  · next hs => exact repeatLoop_meets h hw hs
  · next hs => exact functionStatement_meets h hw hs
  · next hs => exact localStatement_meets h hw hs
  · next hs => exact labelStatement_meets hw hs
  · next hs => exact jumpStatement_meets hw hs
  · exact assignOrCall_meets h hw

/-- The words before the next statement of a block, the last one before it standing first. -/
def upTo (ss : List Statement) : Language Letter :=
  Spelling.semicolons * Spelling.statements none ss.reverse

theorem upTo_cons (ss : List Statement) (s : Statement) :
    upTo (s :: ss) =
      upTo ss * Spelling.separation ss.head? s * Spelling.statement s * Spelling.trail s := by
  rw [upTo, upTo, List.reverse_cons, Spelling.statements_concat, List.getLast?_reverse,
    Option.or_none]
  simp only [mul_assoc]

theorem upTo_mul_semicolon_le {ss : List Statement} (hss : ∀ s ∈ ss, s.isLast = false) :
    upTo ss * Spelling.symbol .semicolon ≤ upTo ss :=
  Spelling.statements_mul_semicolon_le fun s hs => hss s (List.mem_reverse.1 hs)

/-- What is known between two statements of a block. Where a parenthesis is next and the last
statement could have gone on with it, a semicolon has been read. -/
structure BetweenStatements (depth : Nat) (w₀ : Window) (ss : List Statement) (w : Window) :
    Prop where
  need : ∀ s ∈ ss, Need.statement s ≤ depth
  paren : w.current.symbol = .leftParen → ss.head?.any Statement.endsOpen = true →
    w₀.Reads (upTo ss * Spelling.symbol .semicolon) w

/-- What is read as the statements of a block. -/
structure IsBlock (ss : List Statement) : Prop where
  lastOnly : lastOnly ss
  sound : Everywhere.statements sound ss

def AllOpen (ss : List Statement) : Prop :=
  ∀ s ∈ ss, Everywhere.statement sound s ∧ s.isLast = false

theorem AllOpen.isBlock {ss : List Statement} (hss : AllOpen ss) : IsBlock ss.reverse where
  lastOnly s hs := (hss s (List.mem_reverse.1 (List.mem_of_mem_dropLast hs))).2
  sound := Everywhere.statements_iff.2 fun s hs => (hss s (List.mem_reverse.1 hs)).1

theorem AllOpen.isBlock_cons {ss : List Statement} {s : Statement} (hss : AllOpen ss)
    (hs : Everywhere.statement sound s) : IsBlock (s :: ss).reverse where
  lastOnly t ht := by
    rw [List.reverse_cons, List.dropLast_concat] at ht
    exact (hss t (List.mem_reverse.1 ht)).2
  sound := by
    refine Everywhere.statements_iff.2 fun t ht => ?_
    rcases List.mem_cons.1 (List.mem_reverse.1 ht) with rfl | ht
    · exact hs
    · exact (hss t ht).1

/-- Words behind which any statement read from the window can stand. -/
theorem exists_reads_before {ss : List Statement} (hss : AllOpen ss) (hr : w₀.Reads (upTo ss) w)
    (hbetween : BetweenStatements depth w₀ ss w) :
    ∃ K, w₀.Reads K w ∧ K ≤ upTo ss ∧ ∀ s, StatementFrom w s →
      K * Spelling.statement s ≤ upTo (s :: ss) := by
  have habsorb := upTo_mul_semicolon_le fun s hs => (hss s hs).2
  by_cases hp : w.current.symbol = .leftParen ∧ ss.head?.any Statement.endsOpen = true
  · refine ⟨_, hbetween.paren hp.1 hp.2, habsorb, fun s hs => ?_⟩
    rw [upTo_cons, Spelling.separation]
    refine le_trans ?_ (le_mul_of_one_le_right' (Spelling.one_le_trail s))
    split
    · exact le_rfl
    · rw [mul_one]
      exact mul_le_mul_left habsorb _
  · refine ⟨_, hr, le_rfl, fun s hs => ?_⟩
    have hsep : Spelling.separation ss.head? s = 1 := by
      rw [Spelling.separation, if_neg]
      intro h
      obtain ⟨hopen, hparen⟩ := Bool.and_eq_true_iff.1 h
      exact hp ⟨hs.paren hparen, hopen⟩
    rw [upTo_cons, hsep, mul_one]
    exact le_mul_of_one_le_right' (Spelling.one_le_trail s)

theorem plain_lastStatement :
    ∃ s, IsLastStatement s ∧ HasPlain (Spelling.statement s * Spelling.trail s) := by
  refine ⟨.breakLoop default, ⟨⟨trivial, trivial⟩, rfl, rfl⟩, ?_⟩
  rw [Spelling.statement]
  exact .mul (.symbol rfl) (.mono le_self_add .one)

theorem plain_statement (w : Window) :
    ∃ s, StatementFrom w s ∧ HasPlain (Spelling.statement s) := by
  obtain ⟨b, hb, hp⟩ := plain_block
  refine ⟨.doBlock b default, .of_keyword ⟨trivial, hb⟩ rfl rfl, ?_⟩
  rw [Spelling.statement]
  exact .mul (.mul (.symbol rfl) hp) (.symbol rfl)

theorem statementStep_meets {ss : List Statement} (h : inner.Sound depth) (terminators : List Symbol)
    (hss : AllOpen ss) (hr : w₀.Reads (upTo ss) w) (hbetween : BetweenStatements depth w₀ ss w) :
    (Grammar.statementStep inner terminators ss).Meets w₀ w
      (Sum.elim upTo fun ss => Spelling.semicolons * Spelling.statements none ss)
      (Sum.elim AllOpen IsBlock)
      (Sum.elim (BetweenStatements depth w₀) fun ss _ => Need.statements ss ≤ depth) := by
  -- A `return` or a `break` is the last statement.
  have hlast : ∀ (Φ : Window → Prop) (s : Statement), IsLastStatement s →
      (∀ w, Φ w → Need.statement s ≤ depth) →
      (pure (.inr (s :: ss).reverse) : Parse (List Statement ⊕ List Statement)).Follows w₀
      (upTo ss * (Spelling.statement s * Spelling.trail s)) Φ
      (Sum.elim upTo fun ss => Spelling.semicolons * Spelling.statements none ss)
      (Sum.elim AllOpen IsBlock)
      (Sum.elim (BetweenStatements depth w₀) fun ss _ => Need.statements ss ≤ depth) := by
    intro Φ s hs hneed
    have hsep : Spelling.separation ss.head? s = 1 := by
      rw [Spelling.separation, hs.paren, Bool.and_false]
      rfl
    refine .pure ?_ (hss.isBlock_cons hs.sound) fun w hΦ => Need.statements_le_iff.2 ?_
    · show _ ≤ upTo (s :: ss)
      rw [upTo_cons, hsep, mul_one, mul_assoc]
    · intro t ht
      rcases List.mem_cons.1 (List.mem_reverse.1 ht) with rfl | ht
      · exact hneed w hΦ
      · exact hbetween.need t ht
  refine .symbol ?_
  split
  · exact .pure hr hss.isBlock
      (Need.statements_le_iff.2 fun s hs => hbetween.need s (List.mem_reverse.1 hs))
  · next hgo =>
    split
    · next hs =>
      refine .take (p := (·.symbol = .semicolon)) hr (by simp [hs]) hs fun w' hr' => ?_
      exact .pure (hr'.mono (upTo_mul_semicolon_le fun s hs => (hss s hs).2)) hss
        ⟨hbetween.need, fun _ _ => hr'⟩
    · next hs =>
      refine Follows.meets (Φ := fun w' => w' = w) ?_ w hr rfl
      refine .bind ?_ plain_lastStatement fun s hs => hlast _ s hs fun w hΦ => hΦ.1
      rintro w hw rfl
      exact returnStatement_meets h hw hs
    · next hs =>
      refine Follows.meets (Φ := fun w' => w' = w) ?_ w hr rfl
      refine .bind ?_ plain_lastStatement fun s hs => hlast _ s hs fun w hΦ => hΦ.1
      rintro w hw rfl
      exact breakStatement_meets hw hs
    · obtain ⟨K, hr, hK, hstatement⟩ := exists_reads_before hss hr hbetween
      refine Follows.meets (Φ := fun w' => w' = w) ?_ w hr rfl
      refine .bind (F := StatementUpTo depth) ?_ (plain_statement w) fun s hs => ?_
      · rintro w hw rfl
        exact statement_meets h hw
      · refine .pure (hstatement s hs) (List.forall_mem_cons.2 ⟨⟨hs.sound, hs.isLast⟩, hss⟩) ?_
        rintro w' ⟨hupTo, -⟩
        refine ⟨?_, fun hparen hopen => ?_⟩
        · simpa using ⟨hupTo.need, hbetween.need⟩
        · have hsuffix := hupTo.suffix hopen
          rw [hparen] at hsuffix
          cases hsuffix

theorem statements_meets (h : inner.Sound depth) (terminators : List Symbol) (hw : w.Proper) :
    (loop (Grammar.statementStep inner terminators) []).Meets w w
      (fun ss => Spelling.semicolons * Spelling.statements none ss) IsBlock
      fun ss _ => Need.statements ss ≤ depth := by
  have hnil : AllOpen [] := fun _ hs => absurd hs List.not_mem_nil
  have hbetween : BetweenStatements depth w [] w :=
    ⟨fun _ hs => absurd hs List.not_mem_nil, fun _ hopen => absurd hopen Bool.false_ne_true⟩
  have hstep : ∀ (ss : List Statement) (w' : Window), AllOpen ss → w.Reads (upTo ss) w' →
      BetweenStatements depth w ss w' → _ := fun ss w' hss hr hbetween =>
    statementStep_meets h terminators hss hr hbetween
  have hloop := Follows.loop (I := upTo) (a := []) hnil
    (fun ss hss => .of_le (a := ss.reverse) le_rfl hss.isBlock) hstep
  refine hloop.meets w ⟨[], ?_, .refl hw⟩ hbetween
  rw [upTo, List.reverse_nil, Spelling.statements, mul_one]
  exact Language.nil_mem_kstar _

theorem block_meets (h : inner.Sound depth) (terminators : List Symbol) (hw : w.Proper) :
    (Grammar.block inner terminators).Meets w w Spelling.block (Everywhere.block sound)
      fun b _ => Need.block b ≤ depth + 1 := by
  refine .current ?_
  refine Follows.start (Φ := fun _ => True) ?_ hw trivial
  refine .bind (fun w hw _ => statements_meets h terminators hw) ?_ fun ss hss => ?_
  · refine ⟨[], ⟨fun _ hs => absurd hs List.not_mem_nil, trivial⟩, [], ?_, isPlain_nil⟩
    rw [Spelling.statements, mul_one]
    exact Language.nil_mem_kstar _
  · refine .pure ?_ ⟨hss.lastOnly, hss.sound⟩ ?_
    · rw [Spelling.block, one_mul]
    · rintro w ⟨hneed, -⟩
      rw [Need.block]
      omega

/-! ## Levels -/

theorem fail_sound {fault : String → ParseFault}
    (hfault : ∀ near, (fault near).isGrammatical = false) {α : Type} {N : α → Language Letter}
    {Q : α → Prop} {S : α → Window → Prop} : (fail fault : Parse α).Meets w₀ w N Q S where
  ok h := by cases h
  fault h hg := by
    cases h
    rw [hfault] at hg
    cases hg

theorem sound_ofDepth (depth : Nat) : (Level.ofDepth depth).Sound depth := by
  induction depth with
  | zero => exact ⟨fun _ _ _ => fail_sound fun _ => rfl, fun _ _ _ => fail_sound fun _ => rfl⟩
  | succ depth ih =>
    exact ⟨fun terminators _ hw => block_meets ih terminators hw,
      fun limit _ hw => operand_meets ih hw limit⟩

end LuaSource.Read
