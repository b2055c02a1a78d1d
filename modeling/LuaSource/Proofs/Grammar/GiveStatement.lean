-- SUMMARY: Statements and blocks are given back from their spellings, and so at every level.
import LuaSource.Proofs.Grammar.GiveExpression

/-!
# Giving statements

On a spelling of a statement the production for it gives the statement, up to spans, if what
stands behind it does not go on with it. In a block this is so because of the semicolons that
have to stand before a parenthesis.
-/

namespace LuaSource

theorem Expression.StopsAt.of_statement {e : Expression} {x : Symbol}
    (hx : x.followsStatement = true) (hparen : e.endsOpen = true → x ≠ .leftParen) :
    e.StopsAt 0 x where
  operator op hop := by
    rw [Symbol.ofSymbol?_of_followsStatement hx] at hop
    cases hop
  suffix he := by
    have hall : ∀ x ∈ Symbol.all, x.followsStatement = true → x ≠ .leftParen →
        x.beginsSuffix = false := by decide
    exact hall x (Symbol.mem_all x) hx (hparen he)

theorem Statement.StopsAt.ne {s : Statement} {x y : Symbol} (h : s.StopsAt x)
    (hy : y.followsStatement = false) : x ≠ y := by
  rintro rfl
  rw [h.follows] at hy
  cases hy

/-- The last of the values that a statement ends with stops where the statement does. -/
theorem Statement.StopsAt.last {s : Statement} {es : List Expression} {x : Symbol}
    (h : s.StopsAt x) (hs : s.endsOpen = es.getLast?.any Expression.endsOpen) :
    ∀ e ∈ es.getLast?, e.StopsAt 0 x := by
  intro e he
  refine .of_statement h.follows fun hopen => h.paren ?_
  rw [hs, Option.mem_def.1 he, Option.any_some, hopen]

namespace Give

open Parse

variable {inner : Level} {depth : Nat} {w : Window} {R : Language Letter}

/-! ## Loops -/

theorem doBlock_gives {b : Block} {span : Span} (h : inner.Complete depth) (hw : w.Ready)
    (hl : w.letters ∈ Spelling.statement (.doBlock b span) * R)
    (hb : Everywhere.block grammatical b) (hneed : Need.block b ≤ depth) :
    (Grammar.doBlock inner).Gives w R fun s =>
      Shape.statement s = Shape.statement (.doBlock b span) := by
  rw [Spelling.statement] at hl
  simp only [mul_assoc] at hl
  refine .take hw hl fun w' hw' hl' _ => ?_
  refine (h.block hw' hl' hb hneed (by decide) (.symbol (.inr (by simp)))).bind
    fun b' w'' hw'' hl'' hb' => ?_
  refine .expectClosing hw'' hl'' fun closing w' hw' hl' => .pure hw' hl' ?_
  rw [Shape.statement, Shape.statement, hb']

theorem whileLoop_gives {e : Expression} {b : Block} {span : Span} (h : inner.Complete depth)
    (hw : w.Ready) (hl : w.letters ∈ Spelling.statement (.whileLoop e b span) * R)
    (he : Everywhere.expression grammatical e) (hb : Everywhere.block grammatical b)
    (hneed : Need.statement (.whileLoop e b span) ≤ depth) :
    (Grammar.whileLoop inner).Gives w R fun s =>
      Shape.statement s = Shape.statement (.whileLoop e b span) := by
  rw [Spelling.statement] at hl
  simp only [mul_assoc] at hl
  rw [Need.statement, Nat.max_le] at hneed
  refine .take hw hl fun w' hw' hl' _ => ?_
  refine (expression_gives h hw' hl' he (by omega) (.symbol (.of_delimiter rfl rfl))).bind
    fun e' w'' hw'' hl'' he' => ?_
  refine .expect hw'' hl'' fun _ w' hw' hl' => ?_
  refine (h.block hw' hl' hb hneed.2 (by decide) (.symbol (.inr (by simp)))).bind
    fun b' w'' hw'' hl'' hb' => ?_
  refine .expectClosing hw'' hl'' fun closing w' hw' hl' => .pure hw' hl' ?_
  rw [Shape.statement, Shape.statement, he', hb']

theorem repeatLoop_gives {e : Expression} {b : Block} {span : Span} (h : inner.Complete depth)
    (hw : w.Ready) (hl : w.letters ∈ Spelling.statement (.repeatLoop b e span) * R)
    (he : Everywhere.expression grammatical e) (hb : Everywhere.block grammatical b)
    (hneed : Need.statement (.repeatLoop b e span) ≤ depth)
    (hR : Begins R (Statement.repeatLoop b e span).StopsAt) :
    (Grammar.repeatLoop inner).Gives w R fun s =>
      Shape.statement s = Shape.statement (.repeatLoop b e span) := by
  rw [Spelling.statement] at hl
  simp only [mul_assoc] at hl
  rw [Need.statement, Nat.max_le] at hneed
  refine .take hw hl fun w' hw' hl' _ => ?_
  refine (h.block hw' hl' hb hneed.2 (by decide) (.symbol (.inr (by simp)))).bind
    fun b' w'' hw'' hl'' hb' => ?_
  refine .expectClosing hw'' hl'' fun _ w' hw' hl' => ?_
  refine (expression_gives h hw' hl' he (by omega)
    (hR.mono fun x hx => .of_statement hx.follows hx.paren)).bind
    fun e' w'' hw'' hl'' he' => .pure hw'' hl'' ?_
  rw [Shape.statement, Shape.statement, he', hb']

/-! ## Conditions -/

theorem clause_gives {c : Clause} (h : inner.Complete depth) (hw : w.Ready)
    (hl : w.letters ∈ Spelling.clause c * R) (hc : Everywhere.clause grammatical c)
    (hneed : Need.clause c ≤ depth)
    (hR : Begins R fun x => x = .eof ∨ x ∈ [.kwElse, .kwElseif, .kwEnd]) (keyword : Span) :
    (Grammar.clause inner keyword).Gives w R fun c' => Shape.clause c' = Shape.clause c := by
  obtain ⟨e, b, span⟩ := c
  rw [Spelling.clause] at hl
  simp only [mul_assoc] at hl
  rw [Need.clause, Nat.max_le] at hneed
  refine (expression_gives h hw hl hc.1 (by omega) (.symbol (.of_delimiter rfl rfl))).bind
    fun e' w' hw' hl' he => ?_
  refine .expect hw' hl' fun _ w'' hw'' hl'' => ?_
  refine (h.block hw'' hl'' hc.2 hneed.2 (by decide) hR).bind
    fun b' w' hw' hl' hb => .pure hw' hl' ?_
  rw [Shape.clause, Shape.clause, he, hb]

/-- Behind the clauses there is `else` or `end`. -/
theorem begins_otherwise (b : Option Block) :
    Begins (Spelling.otherwise b * (Spelling.symbol .kwEnd * R))
      fun x => x = .kwElse ∨ x = .kwEnd := by
  cases b with
  | none =>
    rw [Spelling.otherwise, one_mul]
    exact .symbol (.inr rfl)
  | some b =>
    rw [Spelling.otherwise, mul_assoc]
    exact .symbol (.inl rfl)

/-- What ends the block of a clause is there, whether another clause comes behind it or none. -/
theorem begins_moreClauses (cs : List Clause)
    (hR : Begins R fun x => x = .eof ∨ x ∈ [.kwElse, .kwElseif, .kwEnd]) :
    Begins (Spelling.series .kwElseif Spelling.clause cs * R)
      fun x => x = .eof ∨ x ∈ [.kwElse, .kwElseif, .kwEnd] := by
  cases cs with
  | nil =>
    rw [Spelling.series, one_mul]
    exact hR
  | cons d ds =>
    rw [Spelling.series, mul_assoc, mul_assoc]
    exact .symbol (by simp)

theorem conditional_gives {cs : List Clause} {otherwise : Option Block} {span : Span}
    (h : inner.Complete depth) (hw : w.Ready)
    (hl : w.letters ∈ Spelling.statement (.conditional cs otherwise span) * R)
    (hcs : Everywhere.clauses grammatical cs) (hb : Everywhere.otherwise grammatical otherwise)
    (hneed : Need.statement (.conditional cs otherwise span) ≤ depth) :
    (Grammar.conditional inner).Gives w R fun s =>
      Shape.statement s = Shape.statement (.conditional cs otherwise span) := by
  rw [Need.statement, Nat.max_le] at hneed
  cases cs with
  | nil =>
    rw [Spelling.statement, Spelling.clauses, zero_mul, zero_mul, zero_mul] at hl
    exact absurd hl (Language.notMem_zero _)
  | cons c cs =>
    rw [Spelling.statement, Spelling.clauses, Spelling.moreClauses_eq] at hl
    simp only [mul_assoc] at hl
    have hclauses := Need.clauses_le_iff.1 hneed.1
    have hlast : Begins (Spelling.otherwise otherwise * (Spelling.symbol .kwEnd * R))
        fun x => x = .eof ∨ x ∈ [.kwElse, .kwElseif, .kwEnd] :=
      (begins_otherwise otherwise).mono fun x hx => by rcases hx with rfl | rfl <;> simp
    refine .take hw hl fun w' hw' hl' _ => ?_
    refine (clause_gives h hw' hl' hcs.1 (hclauses c (by simp))
      (begins_moreClauses cs hlast) _).bind
      fun c' w'' hw'' hl'' hc => ?_
    refine (loop_separatedStep_gives (F := fun _ x => x = .eof ∨ x ∈ [.kwElse, .kwElseif, .kwEnd])
      Shape.clause (by decide) (fun _ => Local.clause_local h.isLocal _) ?_ (by simp)
      (fun _ _ => hlast)
      ((begins_otherwise otherwise).mono fun x hx => by rcases hx with rfl | rfl <;> decide)
      [c'] hw'' hl'').bind fun cs' w' hw' hl' hcs' => ?_
    · intro d hd t w M hw hl hM
      exact clause_gives h hw hl (Everywhere.clauses_iff.1 hcs.2 d hd)
        (hclauses d (List.mem_cons_of_mem _ hd)) hM _
    have hshape : cs'.map Shape.clause = (c :: cs).map Shape.clause := by
      rw [hcs']
      simp [hc]
    -- With `else` or without, the statement ends in the same way.
    have hrest : ∀ (o : Option Block) (v : Window), v.Ready →
        v.letters ∈ Spelling.symbol .kwEnd * R →
        Shape.otherwise o = Shape.otherwise otherwise → Gives (do
          let closing ← expectClosing .kwEnd .kwIf w.current.span.start.line
          return Statement.conditional cs' o (Span.between w.current.span closing.span)) v R
        fun s => Shape.statement s = Shape.statement (.conditional (c :: cs) otherwise span) := by
      intro o v hv hl ho
      refine .expectClosing hv hl fun closing w' hw' hl' => .pure hw' hl' ?_
      rw [Shape.statement, Shape.statement, ho, Shape.clauses_eq_map, Shape.clauses_eq_map, hshape]
    cases otherwise with
    | none =>
      rw [Spelling.otherwise, one_mul] at hl'
      refine .accept_none (hw'.begins (P := (· ≠ .kwElse)) hl' (.symbol (by decide))) ?_
      dsimp only
      rw [pure_bind]
      exact hrest none w' hw' hl' rfl
    | some b =>
      rw [Spelling.otherwise, mul_assoc] at hl'
      refine .accept_some hw' hl' fun _ w'' hw'' hl'' => ?_
      dsimp only
      rw [bind_map_left]
      refine (h.block hw'' hl'' hb hneed.2 (by decide) (.symbol (.inr (by simp)))).bind
        fun b' w' hw' hl' hb' => hrest (some b') w' hw' hl' ?_
      rw [Shape.otherwise, Shape.otherwise, hb']

/-! ## Counting and iterating -/

theorem forBody_gives {b : Block} (h : inner.Complete depth) (hw : w.Ready)
    (hl : w.letters ∈ Spelling.symbol .kwDo * (Spelling.block b * (Spelling.symbol .kwEnd * R)))
    (hb : Everywhere.block grammatical b) (hneed : Need.block b ≤ depth) (line : Nat) :
    (Grammar.forBody inner line).Gives w R fun r => Shape.block r.1 = Shape.block b := by
  refine .expect hw hl fun _ w' hw' hl' => ?_
  refine (h.block hw' hl' hb hneed (by decide) (.symbol (.inr (by simp)))).bind
    fun b' w'' hw'' hl'' hb' => ?_
  exact .expectClosing hw'' hl'' fun closing w' hw' hl' => .pure hw' hl' hb'

theorem name_gives {n : Name} (hw : w.Ready) (hl : w.letters ∈ Spelling.name n * R) :
    (expectName : Parse _).Gives w R fun m => Shape.name m = Shape.name n := by
  rw [← bind_pure expectName]
  refine .expectName hw hl fun m w' hw' hl' hm => .pure hw' hl' ?_
  rw [Shape.name, Shape.name, hm]

theorem names_gives {ns : List Name} (hw : w.Ready) (hl : w.letters ∈ Spelling.names ns * R)
    (hR : Begins R (· ≠ .comma)) :
    (commaList expectName : Parse _).Gives w R fun ms => ms.map Shape.name = ns.map Shape.name := by
  refine commaList_gives (F := fun _ _ => True) expectName_local ?_ (fun _ => trivial)
    (fun _ _ _ _ => trivial) hR hw hl
  intro n _ w M hw hl _
  exact name_gives hw hl

theorem numericFor_gives {n : Name} {start limit : Expression} {step : Option Expression}
    {b : Block} {span : Span} (h : inner.Complete depth) (hw : w.Ready)
    (hl : w.letters ∈ Spelling.statement (.numericFor n start limit step b span) * R)
    (hs : Everywhere.statement grammatical (.numericFor n start limit step b span))
    (hneed : Need.statement (.numericFor n start limit step b span) ≤ depth) :
    (Grammar.forLoop inner).Gives w R fun s =>
      Shape.statement s = Shape.statement (.numericFor n start limit step b span) := by
  obtain ⟨-, -, hstart, hlimit, hstep, hb⟩ := hs
  rw [Spelling.statement] at hl
  simp only [mul_assoc] at hl
  simp only [Need.statement, Nat.max_le] at hneed
  refine .take hw hl fun v hv hl' _ => .symbol ?_
  rw [if_pos (hv.begins (P := (· = .name)) hl' (.name rfl))]
  refine .followingSymbol ?_
  rw [hv.proper.symbol_following, Begins.symbol (P := (· = .assign)) rfl _ (tail_mem hl')]
  refine .expectName hv hl' fun n' w' hw' hl' hn => ?_
  refine .expect hw' hl' fun _ w'' hw'' hl'' => ?_
  refine (expression_gives h hw'' hl'' hstart (by omega) (.symbol (.of_delimiter rfl rfl))).bind
    fun start' w' hw' hl' hstart' => ?_
  refine .expect hw' hl' fun _ w'' hw'' hl'' => ?_
  have hbehind : ∀ e : Expression, Begins (Spelling.step step *
      (Spelling.symbol .kwDo * (Spelling.block b * (Spelling.symbol .kwEnd * R))))
      (e.StopsAt 0) := by
    intro e
    cases step with
    | none =>
      rw [Spelling.step, one_mul]
      exact .symbol (.of_delimiter rfl rfl)
    | some d =>
      rw [Spelling.step, mul_assoc]
      exact .symbol (.of_delimiter rfl rfl)
  refine (expression_gives h hw'' hl'' hlimit (by omega) (hbehind limit)).bind
    fun limit' w' hw' hl' hlimit' => ?_
  -- With a step or without, the statement goes on in the same way.
  have hrest : ∀ (o : Option Expression) (u : Window), u.Ready →
      u.letters ∈ Spelling.symbol .kwDo * (Spelling.block b * (Spelling.symbol .kwEnd * R)) →
      Shape.step o = Shape.step step →
      Gives (Grammar.forBody inner w.current.span.start.line >>= fun r =>
        pure (Statement.numericFor n' start' limit' o r.1
          (Span.between w.current.span r.2.span))) u R
      fun s => Shape.statement s = Shape.statement (.numericFor n start limit step b span) := by
    intro o u hu hl ho
    refine (forBody_gives h hu hl hb (by omega) _).bind fun r w' hw' hl' hb' =>
      .pure hw' hl' ?_
    rw [Shape.statement, Shape.statement, Shape.name, Shape.name, hn, hstart', hlimit', ho, hb']
  cases step with
  | none =>
    rw [Spelling.step, one_mul] at hl'
    refine .accept_none (hw'.begins (P := (· ≠ .comma)) hl' (.symbol (by decide))) ?_
    dsimp only
    rw [pure_bind]
    exact hrest none w' hw' hl' rfl
  | some e =>
    rw [Spelling.step, mul_assoc] at hl'
    simp only [Need.step] at hneed
    refine .accept_some hw' hl' fun _ w'' hw'' hl'' => ?_
    dsimp only
    rw [bind_map_left]
    refine (expression_gives h hw'' hl'' hstep (by omega) (.symbol (.of_delimiter rfl rfl))).bind
      fun e' w' hw' hl' he => hrest (some e') w' hw' hl' ?_
    rw [Shape.step, Shape.step, he]

theorem genericFor_gives {ns : List Name} {es : List Expression} {b : Block} {span : Span}
    (h : inner.Complete depth) (hw : w.Ready)
    (hl : w.letters ∈ Spelling.statement (.genericFor ns es b span) * R)
    (hs : Everywhere.statement grammatical (.genericFor ns es b span))
    (hneed : Need.statement (.genericFor ns es b span) ≤ depth) :
    (Grammar.forLoop inner).Gives w R fun s =>
      Shape.statement s = Shape.statement (.genericFor ns es b span) := by
  obtain ⟨-, -, hes, hb⟩ := hs
  rw [Spelling.statement] at hl
  simp only [mul_assoc] at hl
  rw [Need.statement, Nat.max_le] at hneed
  refine .take hw hl fun v hv hl' _ => .symbol ?_
  have hgeneric : (Grammar.genericFor inner w.current.span).Gives v R fun s =>
      Shape.statement s = Shape.statement (.genericFor ns es b span) := by
    refine (names_gives hv hl' (.symbol (by decide))).bind fun ns' w' hw' hl' hns => ?_
    refine .expect hw' hl' fun _ w'' hw'' hl'' => ?_
    refine (expressionList_gives h hw'' hl'' hes hneed.1 (.symbol (by decide)) fun _ _ =>
      .symbol (.of_delimiter rfl rfl)).bind fun es' w' hw' hl' hes' => ?_
    refine (forBody_gives h hw' hl' hb hneed.2 _).bind fun r w'' hw'' hl'' hb' =>
      .pure hw'' hl'' ?_
    rw [Shape.statement, Shape.statement, hns, hes', hb']
  cases ns with
  | nil =>
    rw [Spelling.names, Spelling.list, zero_mul] at hl'
    exact absurd hl' (Language.notMem_zero _)
  | cons n ns =>
    rw [Spelling.names, Spelling.list, mul_assoc] at hl'
    rw [if_pos (hv.begins (P := (· = .name)) hl' (.name rfl))]
    refine .followingSymbol ?_
    have hbehind : Begins (Spelling.series .comma Spelling.name ns * (Spelling.symbol .kwIn *
        (Spelling.expressions es * (Spelling.symbol .kwDo * (Spelling.block b *
          (Spelling.symbol .kwEnd * R)))))) fun x => x = .comma ∨ x = .kwIn := by
      cases ns with
      | nil =>
        rw [Spelling.series, one_mul]
        exact .symbol (.inr rfl)
      | cons m ms =>
        rw [Spelling.series, mul_assoc, mul_assoc]
        exact .symbol (.inl rfl)
    have hs := hbehind _ (tail_mem hl')
    rw [← hv.proper.symbol_following] at hs
    rcases hs with hs | hs <;> rw [hs] <;> exact hgeneric

/-! ## Functions and local variables -/

theorem begins_functionBody (f : FunctionBody) :
    Begins (Spelling.functionBody f * R) (· = .leftParen) := by
  obtain ⟨ns, hasVarargs, b, span⟩ := f
  rw [Spelling.functionBody]
  simp only [mul_assoc]
  exact .symbol rfl

/-- The names of a path behind its first one. -/
theorem path_gives {m n : Name} {ns : List Name} (hm : Shape.name m = Shape.name n)
    (hR : Begins R (· ≠ .dot)) (hw : w.Ready)
    (hl : w.letters ∈ Spelling.series .dot Spelling.name ns * R) :
    (separated .dot (fun _ => expectName) m : Parse _).Gives w R fun ms =>
      ms.map Shape.name = (n :: ns).map Shape.name := by
  refine (loop_separatedStep_gives (F := fun _ _ => True) Shape.name (by decide)
    (fun _ => expectName_local) (fun _ _ _ _ _ hw hl _ => name_gives hw hl) (fun _ => trivial)
    (fun _ _ _ _ => trivial) hR [m] hw hl).mono fun ms hms => ?_
  rw [hms]
  simp [hm]

theorem functionName_gives {f : FunctionName} (hw : w.Ready)
    (hl : w.letters ∈ Spelling.functionName f * R) (hR : Begins R (· = .leftParen)) :
    (Grammar.functionName : Parse _).Gives w R fun f' =>
      Shape.functionName f' = Shape.functionName f := by
  obtain ⟨ns, isMethod, span⟩ := f
  have hpath : ∀ {ns : List Name} {M : Language Letter}, w.letters ∈ Spelling.path ns * M →
      ∃ n ms, ns = n :: ms ∧
        w.letters ∈ Spelling.name n * (Spelling.series .dot Spelling.name ms * M) := by
    intro ns M h
    cases ns with
    | nil =>
      rw [Spelling.path, Spelling.list, zero_mul] at h
      exact absurd h (Language.notMem_zero _)
    | cons n ms =>
      rw [Spelling.path, Spelling.list, mul_assoc] at h
      exact ⟨n, ms, rfl, h⟩
  cases isMethod with
  | false =>
    rw [Spelling.functionName_function] at hl
    obtain ⟨n, ms, rfl, hname⟩ := hpath hl
    refine (name_gives hw hname).bind fun m w' hw' hl' hm => ?_
    refine (path_gives hm (hR.mono fun x hx => by simp [hx]) hw' hl').bind
      fun path w'' hw'' hl'' hpath => ?_
    have hs := hw''.begins hl'' hR
    refine .accept_none (by simp [hs]) (.pure hw'' hl'' ?_)
    rw [Shape.functionName, Shape.functionName, hpath]
  | true =>
    rcases List.eq_nil_or_concat ns with rfl | ⟨ns, method, rfl⟩
    · simp only [Spelling.functionName, List.getLast?_nil, if_true, zero_mul] at hl
      exact absurd hl (Language.notMem_zero _)
    · rw [List.concat_eq_append, Spelling.functionName_method, mul_assoc, mul_assoc] at hl
      obtain ⟨n, ms, rfl, hname⟩ := hpath hl
      refine (name_gives hw hname).bind fun m w' hw' hl' hm => ?_
      refine (path_gives hm (.symbol (by decide)) hw' hl').bind fun path w'' hw'' hl'' hpath => ?_
      refine .accept_some hw'' hl'' fun _ w' hw' hl' => ?_
      refine (name_gives hw' hl').bind fun method' w'' hw'' hl'' hmethod => .pure hw'' hl'' ?_
      simp only [Shape.functionName, List.concat_eq_append, List.map_append, hpath, hmethod,
        List.map_cons, List.map_nil]

theorem functionStatement_gives {f : FunctionName} {body : FunctionBody} {span : Span}
    (h : inner.Complete depth) (hw : w.Ready)
    (hl : w.letters ∈ Spelling.statement (.function f body span) * R)
    (hbody : Everywhere.functionBody grammatical body) (hneed : Need.functionBody body ≤ depth) :
    (Grammar.functionStatement inner).Gives w R fun s =>
      Shape.statement s = Shape.statement (.function f body span) := by
  rw [Spelling.statement] at hl
  simp only [mul_assoc] at hl
  refine .take hw hl fun w' hw' hl' _ => ?_
  refine (functionName_gives hw' hl' (begins_functionBody body)).bind
    fun f' w'' hw'' hl'' hf => ?_
  refine (functionBody_gives h hw'' hl'' hbody hneed _).bind
    fun body' w' hw' hl' hbody' => .pure hw' hl' ?_
  rw [Shape.statement, Shape.statement, hf, hbody']

theorem localFunction_gives {n : Name} {body : FunctionBody} {span : Span}
    (h : inner.Complete depth) (hw : w.Ready)
    (hl : w.letters ∈ Spelling.statement (.localFunction n body span) * R)
    (hbody : Everywhere.functionBody grammatical body) (hneed : Need.functionBody body ≤ depth) :
    (Grammar.localStatement inner).Gives w R fun s =>
      Shape.statement s = Shape.statement (.localFunction n body span) := by
  rw [Spelling.statement] at hl
  simp only [mul_assoc] at hl
  refine .take hw hl fun w' hw' hl' _ => ?_
  refine .accept_some hw' hl' fun keyword w'' hw'' hl'' => ?_
  refine (name_gives hw'' hl'').bind fun n' w' hw' hl' hn => ?_
  refine (functionBody_gives h hw' hl' hbody hneed _).bind
    fun body' w'' hw'' hl'' hbody' => .pure hw'' hl'' ?_
  rw [Shape.statement, Shape.statement, hn, hbody']

theorem localAssign_gives {ns : List Name} {es : List Expression} {span : Span}
    (h : inner.Complete depth) (hw : w.Ready)
    (hl : w.letters ∈ Spelling.statement (.localAssign ns es span) * R)
    (hes : Everywhere.expressions grammatical es) (hneed : Need.expressions es ≤ depth)
    (hR : Begins R (Statement.localAssign ns es span).StopsAt) :
    (Grammar.localStatement inner).Gives w R fun s =>
      Shape.statement s = Shape.statement (.localAssign ns es span) := by
  rw [Spelling.statement] at hl
  simp only [mul_assoc] at hl
  have hne : ∀ {y : Symbol}, y.followsStatement = false → Begins R (· ≠ y) :=
    fun hy => hR.mono fun x hx => hx.ne hy
  refine .take hw hl fun w' hw' hl' _ => ?_
  have hbehind : ∀ {y : Symbol}, y.followsStatement = false → y ≠ .assign →
      Begins (Spelling.assigned es * R) (· ≠ y) := by
    intro y hy hassign
    cases es with
    | nil =>
      rw [Spelling.assigned, one_mul]
      exact hne hy
    | cons e es =>
      rw [Spelling.assigned, mul_assoc, mul_assoc]
      exact .symbol hassign.symm
  refine .accept_none ?_ ?_
  · refine hw'.begins (P := (· ≠ .kwFunction)) hl' ?_
    cases ns with
    | nil =>
      rw [Spelling.names, Spelling.list]
      exact .zero
    | cons n ns =>
      rw [Spelling.names, Spelling.list, mul_assoc]
      exact .name (by decide)
  refine (names_gives hw' hl' (hbehind (by decide) (by decide))).bind
    fun ns' w'' hw'' hl'' hns => ?_
  have hrest : ∀ (es' : List Expression) (v : Window), v.Ready → v.letters ∈ R →
      Shape.expressions es' = Shape.expressions es → Gives (
        let last := (es'.getLast?.map (·.span)).getD
          ((ns'.getLast?.map (·.span)).getD w.current.span)
        return Statement.localAssign ns' es' (Span.between w.current.span last)) v R
      fun s => Shape.statement s = Shape.statement (.localAssign ns es span) := by
    intro es' v hv hl hes
    refine .pure hv hl ?_
    rw [Shape.statement, Shape.statement, hns, hes]
  cases es with
  | nil =>
    rw [Spelling.assigned, one_mul] at hl''
    refine .accept_none (hw''.begins hl'' (hne (by decide))) ?_
    exact hrest [] w'' hw'' hl'' rfl
  | cons e es =>
    rw [Spelling.assigned, mul_assoc, mul_assoc, ← mul_assoc (Spelling.expression e),
      ← Spelling.expressions] at hl''
    refine .accept_some hw'' hl'' fun _ w' hw' hl' => ?_
    refine (expressionList_gives h hw' hl' hes hneed (hne (by decide)) ?_).bind
      fun es' w'' hw'' hl'' hes' => hrest es' w'' hw'' hl'' hes'
    exact fun d hd => hR.mono fun x hx => hx.last rfl d hd

/-! ## Jumps -/

theorem label_gives {n : Name} {span : Span} (hw : w.Ready)
    (hl : w.letters ∈ Spelling.statement (.label n span) * R) :
    (Grammar.labelStatement : Parse _).Gives w R fun s =>
      Shape.statement s = Shape.statement (.label n span) := by
  rw [Spelling.statement] at hl
  simp only [mul_assoc] at hl
  refine .take hw hl fun w' hw' hl' _ => ?_
  refine (name_gives hw' hl').bind fun n' w'' hw'' hl'' hn => ?_
  refine .expect hw'' hl'' fun _ w' hw' hl' => .pure hw' hl' ?_
  rw [Shape.statement, Shape.statement, hn]

theorem jump_gives {n : Name} {span : Span} (hw : w.Ready)
    (hl : w.letters ∈ Spelling.statement (.jump n span) * R) :
    (Grammar.jumpStatement : Parse _).Gives w R fun s =>
      Shape.statement s = Shape.statement (.jump n span) := by
  rw [Spelling.statement] at hl
  simp only [mul_assoc] at hl
  refine .take hw hl fun w' hw' hl' _ => ?_
  refine (name_gives hw' hl').bind fun n' w'' hw'' hl'' hn => .pure hw'' hl'' ?_
  rw [Shape.statement, Shape.statement, hn]

/-- Behind a `return` or a `break` a semicolon is taken, if there is one. -/
theorem acceptSemicolon_gives {α : Type} {p : Parse α} {Q : α → Prop}
    (hR : Begins R (·.endsBlock = true)) (hw : w.Ready)
    (hl : w.letters ∈ (1 + Spelling.symbol .semicolon) * R)
    (hp : ∀ v : Window, v.Ready → v.letters ∈ R → p.Gives v R Q) :
    (accept .semicolon >>= fun _ => p).Gives w R Q := by
  rw [add_mul, one_mul] at hl
  rcases (Language.mem_add _ _ _).1 hl with hl | hl
  · have hs := hw.begins hl hR
    refine .accept_none (fun h => ?_) (hp w hw hl)
    rw [h] at hs
    cases hs
  · exact .accept_some hw hl fun _ w' hw' hl' => hp w' hw' hl'

theorem begins_trail {P : Symbol → Prop} (hR : Begins R (·.endsBlock = true))
    (hP : ∀ x, x.endsBlock = true → P x) (hsemicolon : P .semicolon) :
    Begins ((1 + Spelling.symbol .semicolon) * R) P := by
  refine .add ?_ (.symbol hsemicolon)
  rw [one_mul]
  exact hR.mono hP

theorem break_gives {span : Span} (hR : Begins R (·.endsBlock = true)) (hw : w.Ready)
    (hl : w.letters ∈ Spelling.symbol .kwBreak * ((1 + Spelling.symbol .semicolon) * R)) :
    (Grammar.breakStatement : Parse _).Gives w R fun s =>
      Shape.statement s = Shape.statement (.breakLoop span) := by
  refine .take hw hl fun w' hw' hl' _ => ?_
  refine acceptSemicolon_gives hR hw' hl' fun v hv hl => .pure hv hl ?_
  rw [Shape.statement, Shape.statement]

theorem return_gives {es : List Expression} {span : Span} (h : inner.Complete depth)
    (hR : Begins R (·.endsBlock = true)) (hw : w.Ready)
    (hl : w.letters ∈ Spelling.symbol .kwReturn *
      (Spelling.values es * ((1 + Spelling.symbol .semicolon) * R)))
    (hes : Everywhere.expressions grammatical es) (hneed : Need.expressions es ≤ depth) :
    (Grammar.returnStatement inner).Gives w R fun s =>
      Shape.statement s = Shape.statement (.returnValues es span) := by
  refine .take hw hl fun w' hw' hl' _ => .symbol ?_
  -- With values or without, the statement ends in the same way.
  have hrest : ∀ (es' : List Expression) (v : Window), v.Ready →
      v.letters ∈ (1 + Spelling.symbol .semicolon) * R →
      Shape.expressions es' = Shape.expressions es → Gives (do
        let _ ← accept .semicolon
        let last := (es'.getLast?.map (·.span)).getD w.current.span
        return Statement.returnValues es' (Span.between w.current.span last)) v R
      fun s => Shape.statement s = Shape.statement (.returnValues es span) := by
    intro es' v hv hl hes'
    refine acceptSemicolon_gives hR hv hl fun u hu hl => .pure hu hl ?_
    rw [Shape.statement, Shape.statement, hes']
  cases es with
  | nil =>
    rw [Spelling.values, one_mul] at hl'
    have hends : w'.current.symbol ∈ Grammar.endsValues := by
      refine hw'.begins hl' (begins_trail (P := (· ∈ Grammar.endsValues)) hR ?_ (by decide))
      intro x hx
      have hall : ∀ x ∈ Symbol.all, x.endsBlock = true → x ∈ Grammar.endsValues := by decide
      exact hall x (Symbol.mem_all x) hx
    rw [if_pos hends, pure_bind]
    exact hrest [] w' hw' hl' rfl
  | cons e es =>
    have hbegins := hw'.begins (P := (·.beginsExpression = true)) hl' (by
      rw [Spelling.values, mul_assoc]
      exact begins_expression e _)
    have hends : w'.current.symbol ∉ Grammar.endsValues := by
      intro hmem
      have hall : ∀ x ∈ Grammar.endsValues, x.beginsExpression = false := by decide
      rw [hall _ hmem] at hbegins
      cases hbegins
    rw [if_neg hends]
    rw [Read.values_eq (List.cons_ne_nil e es)] at hl'
    have hstop : ∀ d : Expression, Begins ((1 + Spelling.symbol .semicolon) * R) (d.StopsAt 0) :=
      fun d => begins_trail hR (fun x hx => .of_statement (Symbol.followsStatement_of_endsBlock hx)
        fun _ h => by rw [h] at hx; cases hx) (.of_delimiter rfl rfl)
    refine (expressionList_gives h hw' hl' hes hneed ?_ fun d _ => hstop d).bind
      fun es' w'' hw'' hl'' hes' => hrest es' w'' hw'' hl'' hes'
    exact begins_trail hR (fun x hx h => by rw [h] at hx; cases hx) (by decide)

/-! ## Assignments and calls -/

theorem nextTarget_gives {v : Variable} (h : inner.Complete depth) (hw : w.Ready)
    (hl : w.letters ∈ Spelling.target v * R) (hv : Everywhere.target grammatical v)
    (hneed : Need.target v ≤ depth) (hR : Begins R (·.beginsSuffix = false)) :
    (Grammar.nextTarget inner).Gives w R fun v' => Shape.target v' = Shape.target v := by
  rw [← Spelling.primary] at hl
  refine (primary_gives h hw hl hv hneed hR).bind fun p w' hw' hl' hp => ?_
  cases p with
  | var v' =>
    refine .pure hw' hl' ?_
    rw [Shape.primary, Shape.primary] at hp
    exact Primary.var.inj hp
  | call c => rw [Shape.primary, Shape.primary] at hp; cases hp
  | parenthesized e span => rw [Shape.primary, Shape.primary] at hp; cases hp

theorem assign_gives {vs : List Variable} {es : List Expression} {span : Span}
    (h : inner.Complete depth) (hw : w.Ready)
    (hl : w.letters ∈ Spelling.statement (.assign vs es span) * R)
    (hvs : Everywhere.targets grammatical vs) (hes : Everywhere.expressions grammatical es)
    (hneed : Need.statement (.assign vs es span) ≤ depth)
    (hR : Begins R (Statement.assign vs es span).StopsAt) :
    (Grammar.assignOrCall inner).Gives w R fun s =>
      Shape.statement s = Shape.statement (.assign vs es span) := by
  rw [Need.statement, Nat.max_le] at hneed
  cases vs with
  | nil =>
    rw [Spelling.statement, Spelling.targets, zero_mul, zero_mul, zero_mul] at hl
    exact absurd hl (Language.notMem_zero _)
  | cons v vs =>
    rw [Spelling.statement, Spelling.targets, Spelling.moreTargets_eq, ← Spelling.primary] at hl
    simp only [mul_assoc] at hl
    have htargets := Need.targets_le_iff.1 hneed.1
    have hbehind : Begins (Spelling.series .comma Spelling.target vs *
        (Spelling.symbol .assign * (Spelling.expressions es * R)))
        fun x => x = .assign ∨ x = .comma := by
      cases vs with
      | nil =>
        rw [Spelling.series, one_mul]
        exact .symbol (.inl rfl)
      | cons u us =>
        rw [Spelling.series, mul_assoc, mul_assoc]
        exact .symbol (.inr rfl)
    refine (primary_gives h hw hl hvs.1 (htargets v (by simp)) (hbehind.mono fun x hx => by
      rcases hx with rfl | rfl <;> rfl)).bind fun p w' hw' hl' hp => .symbol ?_
    obtain ⟨v', rfl, hv'⟩ : ∃ v', p = .var v' ∧ Shape.target v' = Shape.target v := by
      cases p with
      | var v' =>
        rw [Shape.primary, Shape.primary] at hp
        exact ⟨v', rfl, Primary.var.inj hp⟩
      | call c => rw [Shape.primary, Shape.primary] at hp; cases hp
      | parenthesized e span => rw [Shape.primary, Shape.primary] at hp; cases hp
    have hassign : (Grammar.target (.var v') >>= Grammar.assign inner).Gives w' R fun s =>
        Shape.statement s = Shape.statement (.assign (v :: vs) es span) := by
      rw [Grammar.target, pure_bind]
      refine (loop_separatedStep_gives (F := fun _ x => x.beginsSuffix = false)
        Shape.target (by decide)
        (fun _ => (Local.primary_local h.isLocal).bind Local.target_local) ?_ (fun _ => rfl)
        (fun _ _ => .symbol rfl) (.symbol (by decide)) [v'] hw' hl').bind
        fun vs' w'' hw'' hl'' hvs' => ?_
      · intro u hu _ w M hw hl hM
        exact nextTarget_gives h hw hl (Everywhere.targets_iff.1 hvs.2 u hu)
          (htargets u (List.mem_cons_of_mem _ hu)) hM
      refine .expect hw'' hl'' fun _ w' hw' hl' => ?_
      refine (expressionList_gives h hw' hl' hes hneed.2 (hR.mono fun x hx => hx.ne (by decide))
        fun e he => hR.mono fun x hx => hx.last rfl e he).bind
        fun es' w'' hw'' hl'' hes' => .pure hw'' hl'' ?_
      rw [Shape.statement, Shape.statement, hes', Shape.targets_eq_map, Shape.targets_eq_map, hvs']
      simp [hv']
    rcases hw'.begins hl' hbehind with hs | hs <;> rw [hs] <;> exact hassign

theorem callStatement_gives {c : Call} (h : inner.Complete depth) (hw : w.Ready)
    (hl : w.letters ∈ Spelling.statement (.call c) * R) (hc : Everywhere.call grammatical c)
    (hneed : Need.call c ≤ depth) (hR : Begins R (Statement.call c).StopsAt) :
    (Grammar.assignOrCall inner).Gives w R fun s =>
      Shape.statement s = Shape.statement (.call c) := by
  rw [Spelling.statement, ← Spelling.primary] at hl
  have hstop : ∀ x, (Statement.call c).StopsAt x → (Expression.primary (.call c)).StopsAt 0 x :=
    fun x hx => .of_statement hx.follows hx.paren
  refine (primary_gives h hw hl hc hneed (hR.mono fun x hx => (hstop x hx).suffix rfl)).bind
    fun p w' hw' hl' hp => .symbol ?_
  have hx := hw'.begins hl' hR
  split
  · next hs => exact absurd hs (hx.ne rfl)
  · next hs => exact absurd hs (hx.ne rfl)
  · cases p with
    | call c' =>
      refine .pure hw' hl' ?_
      rw [Shape.primary, Shape.primary] at hp
      rw [Shape.statement, Shape.statement, Primary.call.inj hp]
    | var v => rw [Shape.primary, Shape.primary] at hp; cases hp
    | parenthesized e span => rw [Shape.primary, Shape.primary] at hp; cases hp

/-! ## Statements -/

theorem statement_gives {s : Statement} (h : inner.Complete depth) (hlast : s.isLast = false)
    (hw : w.Ready) (hl : w.letters ∈ Spelling.statement s * R)
    (hs : Everywhere.statement grammatical s) (hneed : Need.statement s ≤ depth)
    (hR : Begins R s.StopsAt) :
    (Grammar.statement inner).Gives w R fun s' => Shape.statement s' = Shape.statement s := by
  refine .symbol ?_
  -- The keyword that the statement begins with tells its kind.
  have hkeyword : ∀ {x : Symbol}, Begins (Spelling.statement s * R) (· = x) →
      w.current.symbol = x := fun hx => hw.begins hl hx
  cases s with
  | assign vs es span =>
    have hassign := assign_gives h hw hl hs.2.1 hs.2.2 hneed hR
    cases vs with
    | nil =>
      rw [Spelling.statement, Spelling.targets, zero_mul, zero_mul, zero_mul] at hl
      exact absurd hl (Language.notMem_zero _)
    | cons v vs =>
      rw [Spelling.statement, Spelling.targets] at hl
      simp only [mul_assoc] at hl
      rcases hw.begins hl (begins_target v _) with hx | ⟨hx, -⟩ <;> rw [hx] <;> exact hassign
  | call c =>
    have hcall := callStatement_gives h hw hl hs.2 hneed hR
    rw [Spelling.statement] at hl
    rcases hw.begins hl (begins_call c _) with hx | ⟨hx, -⟩ <;> rw [hx] <;> exact hcall
  | localAssign ns es span =>
    rw [hkeyword (x := .kwLocal) (by
      simp only [Spelling.statement, mul_assoc]
      exact .symbol rfl)]
    exact localAssign_gives h hw hl hs.2.2 hneed hR
  | localFunction n body span =>
    rw [hkeyword (x := .kwLocal) (by
      simp only [Spelling.statement, mul_assoc]
      exact .symbol rfl)]
    exact localFunction_gives h hw hl hs.2.2 hneed
  | doBlock b span =>
    rw [hkeyword (x := .kwDo) (by
      simp only [Spelling.statement, mul_assoc]
      exact .symbol rfl)]
    exact doBlock_gives h hw hl hs.2 hneed
  | whileLoop e b span =>
    rw [hkeyword (x := .kwWhile) (by
      simp only [Spelling.statement, mul_assoc]
      exact .symbol rfl)]
    exact whileLoop_gives h hw hl hs.2.1 hs.2.2 hneed
  | repeatLoop b e span =>
    rw [hkeyword (x := .kwRepeat) (by
      simp only [Spelling.statement, mul_assoc]
      exact .symbol rfl)]
    exact repeatLoop_gives h hw hl hs.2.1 hs.2.2 hneed hR
  | conditional cs otherwise span =>
    rw [hkeyword (x := .kwIf) (by
      cases cs with
      | nil =>
        rw [Spelling.statement, Spelling.clauses, zero_mul, zero_mul]
        exact .zero
      | cons c cs =>
        simp only [Spelling.statement, Spelling.clauses, mul_assoc]
        exact .symbol rfl)]
    exact conditional_gives h hw hl hs.2.1 hs.2.2 hneed
  | numericFor n start limit step b span =>
    rw [hkeyword (x := .kwFor) (by
      simp only [Spelling.statement, mul_assoc]
      exact .symbol rfl)]
    exact numericFor_gives h hw hl hs hneed
  | genericFor ns es b span =>
    rw [hkeyword (x := .kwFor) (by
      simp only [Spelling.statement, mul_assoc]
      exact .symbol rfl)]
    exact genericFor_gives h hw hl hs hneed
  | function f body span =>
    rw [hkeyword (x := .kwFunction) (by
      simp only [Spelling.statement, mul_assoc]
      exact .symbol rfl)]
    exact functionStatement_gives h hw hl hs.2.2 hneed
  | label n span =>
    rw [hkeyword (x := .doubleColon) (by
      simp only [Spelling.statement, mul_assoc]
      exact .symbol rfl)]
    exact label_gives hw hl
  | jump n span =>
    rw [hkeyword (x := .kwGoto) (by
      simp only [Spelling.statement, mul_assoc]
      exact .symbol rfl)]
    exact jump_gives hw hl
  | returnValues es span => cases hlast
  | breakLoop span => cases hlast

/-! ## Blocks -/

theorem not_ends {terminators : List Symbol} {x : Symbol}
    (hterminators : ∀ x ∈ terminators, x.endsBlock = true) (hx : x.endsBlock = false) :
    ¬(x = .eof ∨ x ∈ terminators) := by
  rintro (rfl | hmem)
  · cases hx
  · rw [hterminators x hmem] at hx
    cases hx

/-- A semicolon between statements is skipped. -/
theorem step_of_semicolon {terminators : List Symbol} {ts : List Statement} {M : Language Letter}
    (hterminators : ∀ x ∈ terminators, x.endsBlock = true) (hw : w.Ready)
    (hl : w.letters ∈ Spelling.symbol .semicolon * M) :
    (Grammar.statementStep inner terminators ts).Gives w M (· = .inl ts) := by
  refine .symbol ?_
  rw [hw.symbol hl, if_neg (not_ends hterminators rfl)]
  exact .take hw hl fun w' hw' hl' _ => .pure hw' hl' rfl

section Blocks

variable {terminators : List Symbol} {Q : List Statement → Prop} (h : inner.Complete depth)
  (hterminators : ∀ x ∈ terminators, x.endsBlock = true)

include h hterminators

/-- A statement that others may follow is one step. -/
theorem step_of_statement {s : Statement} {ts : List Statement} {M : Language Letter}
    (hlast : s.isLast = false) (hw : w.Ready) (hl : w.letters ∈ Spelling.statement s * M)
    (hs : Everywhere.statement grammatical s) (hneed : Need.statement s ≤ depth)
    (hM : Begins M s.StopsAt) :
    (Grammar.statementStep inner terminators ts).Gives w M fun r =>
      ∃ s', r = .inl (s' :: ts) ∧ Shape.statement s' = Shape.statement s := by
  have hx := hw.begins hl (begins_statement s M)
  have hends : w.current.symbol.endsBlock = false := by
    have hall : ∀ x ∈ Symbol.all, x.beginsStatement = true → x.endsBlock = false := by decide
    exact hall _ (Symbol.mem_all _) hx.begins
  have hopen : ¬(w.current.symbol = .kwReturn ∨ w.current.symbol = .kwBreak) := by
    intro hx'
    rw [hx.last hx'] at hlast
    cases hlast
  refine .symbol ?_
  rw [if_neg (not_ends hterminators hends)]
  split
  · next hx' =>
    have hbegins := hx.begins
    rw [hx'] at hbegins
    cases hbegins
  · next hx' => exact absurd (.inl hx') hopen
  · next hx' => exact absurd (.inr hx') hopen
  · refine (statement_gives h hlast hw hl hs hneed hM).bind fun s' w' hw' hl' hs' => ?_
    exact .pure hw' hl' ⟨s', rfl, hs'⟩

theorem loop_of_semicolons {ts : List Statement} {M : Language Letter} (hw : w.Ready)
    (hl : w.letters ∈ Spelling.semicolons * M)
    (hgives : ∀ v : Window, v.Ready → v.letters ∈ M →
      (loop (Grammar.statementStep inner terminators) ts).Gives v R Q) :
    (loop (Grammar.statementStep inner terminators) ts).Gives w R Q := by
  obtain ⟨n, hpow⟩ := Spelling.exists_semicolons hl
  clear hl
  induction n generalizing w with
  | zero =>
    rw [pow_zero, one_mul] at hpow
    exact hgives w hw hpow
  | succ n ih =>
    rw [pow_succ', mul_assoc] at hpow
    refine .loop (Local.statementStep_local h.isLocal _) hw
      ((step_of_semicolon hterminators hw hpow).mono ?_)
    rintro r rfl w' hw' hl'
    exact ih hw' hl'

theorem loop_of_statement {s : Statement} {ts : List Statement} {M : Language Letter}
    (hlast : s.isLast = false) (hw : w.Ready) (hl : w.letters ∈ Spelling.statement s * M)
    (hs : Everywhere.statement grammatical s) (hneed : Need.statement s ≤ depth)
    (hM : Begins M s.StopsAt)
    (hgives : ∀ (s' : Statement) (v : Window), v.Ready → v.letters ∈ M →
      Shape.statement s' = Shape.statement s →
      (loop (Grammar.statementStep inner terminators) (s' :: ts)).Gives v R Q) :
    (loop (Grammar.statementStep inner terminators) ts).Gives w R Q := by
  refine .loop (Local.statementStep_local h.isLocal _) hw
    ((step_of_statement h hterminators hlast hw hl hs hneed hM).mono ?_)
  rintro r ⟨s', rfl, hs'⟩ w' hw' hl'
  exact hgives s' w' hw' hl' hs'

/-- A `return` or a `break` is the last step. -/
theorem loop_of_last {s : Statement} {ts : List Statement} (hlast : s.isLast = true)
    (hw : w.Ready) (hl : w.letters ∈ Spelling.statement s * (Spelling.trail s * R))
    (hs : Everywhere.statement grammatical s) (hneed : Need.statement s ≤ depth)
    (hR : Begins R (·.endsBlock = true)) :
    (loop (Grammar.statementStep inner terminators) ts).Gives w R fun ss =>
      ss.map Shape.statement = ts.reverse.map Shape.statement ++ [Shape.statement s] := by
  have hends : ∀ {p : Parse Statement},
      p.Gives w R (fun s' => Shape.statement s' = Shape.statement s) →
      (do return .inr ((← p) :: ts).reverse : Parse (List Statement ⊕ List Statement)).Gives w R
        fun r => ∃ ss, r = .inr ss ∧
          ss.map Shape.statement = ts.reverse.map Shape.statement ++ [Shape.statement s] := by
    intro p hp
    refine hp.bind fun s' w' hw' hl' hs' => .pure hw' hl' ⟨_, rfl, ?_⟩
    simp [hs']
  rw [Spelling.trail, if_pos hlast] at hl
  refine .loop_ends (Local.statementStep_local h.isLocal _) hw (.symbol ?_)
  cases s with
  | returnValues es span =>
    rw [Spelling.statement, mul_assoc] at hl
    rw [hw.symbol hl, if_neg (not_ends hterminators rfl)]
    exact hends (return_gives h hR hw hl hs.2 hneed)
  | breakLoop span =>
    rw [Spelling.statement] at hl
    rw [hw.symbol hl, if_neg (not_ends hterminators rfl)]
    exact hends (break_gives hR hw hl)
  | _ => cases hlast

theorem statements_gives {before : Option Statement} {ss : List Statement}
    (hlast : lastOnly ss) (hss : Everywhere.statements grammatical ss)
    (hneed : Need.statements ss ≤ depth) (hR : Begins R fun x => x = .eof ∨ x ∈ terminators)
    (ts : List Statement) (hw : w.Ready)
    (hl : w.letters ∈ Spelling.semicolons * (Spelling.statements before ss * R)) :
    (loop (Grammar.statementStep inner terminators) ts).Gives w R fun ss' =>
      ss'.map Shape.statement = ts.reverse.map Shape.statement ++ ss.map Shape.statement := by
  have hends : Begins R (·.endsBlock = true) := hR.mono fun x hx => by
    rcases hx with rfl | hx
    · rfl
    · exact hterminators x hx
  induction ss generalizing before ts w with
  | nil =>
    rw [Spelling.statements, one_mul] at hl
    refine loop_of_semicolons h hterminators hw hl fun v hv hl => ?_
    refine .loop_ends (Local.statementStep_local h.isLocal _) hv (.symbol ?_)
    rw [if_pos (hv.begins hl hR)]
    exact .pure hv hl ⟨_, rfl, by simp⟩
  | cons s ss ih =>
    -- What has to separate the statement from the one before it is one semicolon more.
    have hl' : w.letters ∈ Spelling.semicolons * (Spelling.statement s * (Spelling.trail s *
        (Spelling.statements (some s) ss * R))) := by
      rw [Spelling.statements] at hl
      simp only [mul_assoc] at hl
      rw [← mul_assoc Spelling.semicolons] at hl
      exact mul_le_mul_left (Spelling.semicolons_mul_separation_le before s) _ hl
    rw [Need.statements, Nat.max_le] at hneed
    refine loop_of_semicolons h hterminators hw hl' fun v hv hl => ?_
    cases hopen : s.isLast with
    | false =>
      refine loop_of_statement h hterminators hopen hv hl hss.1 hneed.1
        (begins_behind hopen (hends.mono fun _ => .of_endsBlock)) fun s' u hu hl hs' => ?_
      rw [Spelling.trail_of_open hopen] at hl
      refine (ih ?_ hss.2 hneed.2 (s' :: ts) hu hl).mono fun ss' hss' => ?_
      · intro t ht
        cases ss with
        | nil => cases ht
        | cons u us => exact hlast t (List.mem_cons_of_mem _ ht)
      · rw [hss']
        simp [hs']
    | true =>
      obtain rfl : ss = [] := by
        cases ss with
        | nil => rfl
        | cons u us =>
          rw [hlast s List.mem_cons_self] at hopen
          cases hopen
      rw [Spelling.statements, one_mul] at hl
      exact loop_of_last h hterminators hopen hv hl hss.1 hneed.1 hends

theorem block_gives {b : Block} (hw : w.Ready) (hl : w.letters ∈ Spelling.block b * R)
    (hb : Everywhere.block grammatical b) (hneed : Need.block b ≤ depth + 1)
    (hR : Begins R fun x => x = .eof ∨ x ∈ terminators) :
    (Grammar.block inner terminators).Gives w R fun b' => Shape.block b' = Shape.block b := by
  obtain ⟨ss, span⟩ := b
  rw [Spelling.block, mul_assoc] at hl
  rw [Need.block] at hneed
  refine .current ((statements_gives h hterminators hb.1 hb.2 (by omega) hR [] hw hl).bind
    fun ss' w' hw' hl' hss => .pure hw' hl' ?_)
  rw [Shape.block, Shape.block, Shape.statements_eq_map, Shape.statements_eq_map, hss]
  rfl

end Blocks

/-! ## Levels -/

theorem complete_ofDepth (depth : Nat) : (Level.ofDepth depth).Complete depth := by
  induction depth with
  | zero =>
    refine ⟨Local.local_ofDepth 0, ?_, fun _ _ _ _ _ hneed _ => absurd hneed (Nat.not_lt_zero _)⟩
    rintro terminators ⟨ss, span⟩ w R - - - hneed
    rw [Need.block] at hneed
    omega
  | succ depth ih =>
    exact ⟨Local.local_ofDepth _,
      fun hw hl hb hneed hterminators hR => block_gives ih hterminators hw hl hb hneed hR,
      fun hlimit hw hl he hparens hneed hR => operand_gives ih hlimit hw hl he hparens hneed hR⟩

end Give

end LuaSource
