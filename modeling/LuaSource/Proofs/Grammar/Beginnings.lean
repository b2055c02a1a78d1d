-- SUMMARY: The symbols that the words of a language begin with.
import LuaSource.Operator
import LuaSource.Proofs.Grammar.Spelling

/-!
# Beginnings

By the first symbol of what comes, and in two places by the second, a parser tells what it has
before it. So these are what has to be known of the words that spell a tree.
-/

namespace LuaSource

namespace Symbol

/-! ## Kinds of symbols -/

def beginsExpression : Symbol → Bool
  | kwNot | minus | hash | kwNil | kwTrue | kwFalse | ellipsis | number | string | kwFunction
  | leftBrace | name | leftParen => true
  | _ => false

def beginsStatement : Symbol → Bool
  | kwIf | kwWhile | kwDo | kwFor | kwRepeat | kwFunction | kwLocal | doubleColon | kwGoto
  | kwReturn | kwBreak | name | leftParen => true
  | _ => false

/-- What can stand behind a block. -/
def endsBlock : Symbol → Bool
  | kwElse | kwElseif | kwEnd | kwUntil | eof => true
  | _ => false

/-- What can stand behind a statement. -/
def followsStatement (s : Symbol) : Bool := s == semicolon || s.beginsStatement || s.endsBlock

end Symbol

/-! ## First symbols -/

/-- Whether the first symbol of each word has a property. The empty word begins with the end of
the source. -/
def Begins (L : Language Letter) (P : Symbol → Prop) : Prop := ∀ u ∈ L, P (headSymbol u)

namespace Begins

variable {L M : Language Letter} {P Q : Symbol → Prop}

theorem mono (h : Begins L P) (hPQ : ∀ s, P s → Q s) : Begins L Q := fun u hu => hPQ _ (h u hu)

theorem letter {p : Letter → Prop} (h : ∀ c, p c → P c.symbol) :
    Begins (Spelling.letter p * M) P := by
  intro u hu
  obtain ⟨_, ⟨c, hc, rfl⟩, v, -, rfl⟩ := Language.mem_mul.1 hu
  exact h c hc

theorem symbol {s : Symbol} (h : P s) : Begins (Spelling.symbol s * M) P :=
  letter fun _ hc => by rwa [hc]

theorem name {n : Name} (h : P .name) : Begins (Spelling.name n * M) P :=
  letter fun _ hc => by rwa [hc.1]

theorem zero : Begins (0 * M) P := by
  intro u hu
  rw [zero_mul] at hu
  exact absurd hu (Language.notMem_zero u)

theorem add {L' : Language Letter} (h : Begins (L * M) P) (h' : Begins (L' * M) P) :
    Begins ((L + L') * M) P := by
  intro u hu
  rw [add_mul] at hu
  rcases (Language.mem_add _ _ _).1 hu with hu | hu
  · exact h u hu
  · exact h' u hu

theorem semicolons (h : P .semicolon) (hM : Begins M P) : Begins (Spelling.semicolons * M) P := by
  rw [Spelling.semicolons_eq]
  refine .add ?_ ?_
  · rwa [one_mul]
  · rw [mul_assoc]
    exact .symbol h

end Begins

/-! ## Expressions -/

mutual

theorem begins_primary (p : Primary) (M : Language Letter) :
    Begins (Spelling.primary p * M)
      fun s => s = .name ∨ s = .leftParen ∧ p.startsWithParen = true :=
  match p with
  | .var v => by
    rw [Spelling.primary]
    exact begins_target v M
  | .call c => by
    rw [Spelling.primary]
    exact begins_call c M
  | .parenthesized e _ => by
    rw [Spelling.primary, mul_assoc, mul_assoc]
    exact .symbol (.inr ⟨rfl, rfl⟩)

theorem begins_target (v : Variable) (M : Language Letter) :
    Begins (Spelling.target v * M)
      fun s => s = .name ∨ s = .leftParen ∧ v.startsWithParen = true :=
  match v with
  | .name n => by
    rw [Spelling.target]
    exact .name (.inl rfl)
  | .index base key _ => by
    rw [Spelling.target, mul_assoc, mul_assoc, mul_assoc]
    exact begins_primary base _
  | .member base n _ => by
    rw [Spelling.target, mul_assoc, mul_assoc]
    exact begins_primary base _

theorem begins_call (c : Call) (M : Language Letter) :
    Begins (Spelling.call c * M)
      fun s => s = .name ∨ s = .leftParen ∧ c.startsWithParen = true :=
  match c with
  | .function callee args _ => by
    rw [Spelling.call, mul_assoc]
    exact begins_primary callee _
  | .method receiver n args _ => by
    rw [Spelling.call, mul_assoc, mul_assoc, mul_assoc]
    exact begins_primary receiver _

end

theorem begins_table (t : Table) (M : Language Letter) :
    Begins (Spelling.table t * M) (· = .leftBrace) := by
  obtain ⟨fs, span⟩ := t
  rw [Spelling.table, mul_assoc, mul_assoc]
  exact .symbol rfl

theorem begins_arguments (a : Arguments) (M : Language Letter) :
    Begins (Spelling.arguments a * M)
      fun s => s = .leftParen ∨ s = .leftBrace ∨ s = .string := by
  cases a with
  | list es span =>
    rw [Spelling.arguments, mul_assoc, mul_assoc]
    exact .letter fun c hc => .inl hc.1
  | table t =>
    rw [Spelling.arguments]
    exact (begins_table t M).mono fun _ h => .inr (.inl h)
  | string value span =>
    rw [Spelling.arguments]
    exact .letter fun c hc => .inr (.inr hc.1)

theorem begins_expression (e : Expression) (M : Language Letter) :
    Begins (Spelling.expression e * M) (·.beginsExpression = true) :=
  match e with
  | .nil _ => by
    rw [Spelling.expression]
    exact .symbol rfl
  | .boolean value _ => by
    rw [Spelling.expression]
    exact .symbol (by cases value <;> rfl)
  | .number value _ => by
    rw [Spelling.expression]
    exact .letter fun c hc => by rw [hc.1]; rfl
  | .string value _ => by
    rw [Spelling.expression]
    exact .letter fun c hc => by rw [hc.1]; rfl
  | .varargs _ => by
    rw [Spelling.expression]
    exact .symbol rfl
  | .function body _ => by
    rw [Spelling.expression, mul_assoc]
    exact .symbol rfl
  | .primary p => by
    rw [Spelling.expression]
    refine (begins_primary p M).mono ?_
    rintro s (rfl | ⟨rfl, -⟩) <;> rfl
  | .table t => by
    rw [Spelling.expression]
    exact (begins_table t M).mono fun s hs => by rw [hs]; rfl
  | .binary op left right _ => by
    rw [Spelling.expression, mul_assoc, mul_assoc]
    exact begins_expression left _
  | .unary op operand _ => by
    rw [Spelling.expression, mul_assoc]
    exact .symbol (by cases op <;> rfl)

/-! ## Statements -/

/-- What the words of a statement begin with. -/
structure Statement.BeginsWith (s : Statement) (x : Symbol) : Prop where
  begins : x.beginsStatement = true
  paren : x = .leftParen → s.startsWithParen = true
  last : x = .kwReturn ∨ x = .kwBreak → s.isLast = true

theorem Statement.BeginsWith.of_head {s : Statement} {x : Symbol}
    (h : x = .name ∨ x = .leftParen ∧ s.startsWithParen = true) : s.BeginsWith x := by
  rcases h with rfl | ⟨rfl, h⟩
  · exact ⟨rfl, nofun, by simp⟩
  · exact ⟨rfl, fun _ => h, by simp⟩

theorem begins_statement (s : Statement) (M : Language Letter) :
    Begins (Spelling.statement s * M) s.BeginsWith := by
  -- A keyword that begins no other kind of statement.
  have hkeyword : ∀ {x : Symbol} {s : Statement} {L : Language Letter},
      x.beginsStatement = true → x ≠ .leftParen → x ≠ .kwReturn → x ≠ .kwBreak →
      Begins (Spelling.symbol x * L) s.BeginsWith := fun h h₁ h₂ h₃ =>
    .symbol ⟨h, fun h => absurd h h₁, fun h => h.elim (absurd · h₂) (absurd · h₃)⟩
  cases s with
  | assign vs es span =>
    cases vs with
    | nil =>
      rw [Spelling.statement, Spelling.targets, zero_mul, zero_mul]
      exact .zero
    | cons v vs =>
      rw [Spelling.statement, Spelling.targets]
      simp only [mul_assoc]
      exact (begins_target v _).mono fun x hx => .of_head hx
  | call c =>
    rw [Spelling.statement]
    exact (begins_call c M).mono fun x hx => .of_head hx
  | conditional cs b span =>
    cases cs with
    | nil =>
      rw [Spelling.statement, Spelling.clauses, zero_mul, zero_mul]
      exact .zero
    | cons c cs =>
      simp only [Spelling.statement, Spelling.clauses, mul_assoc]
      exact hkeyword rfl (by decide) (by decide) (by decide)
  | returnValues es span =>
    rw [Spelling.statement, mul_assoc]
    exact .symbol ⟨rfl, by rintro ⟨⟩, fun _ => rfl⟩
  | breakLoop span =>
    rw [Spelling.statement]
    exact .symbol ⟨rfl, by rintro ⟨⟩, fun _ => rfl⟩
  | _ =>
    simp only [Spelling.statement, mul_assoc]
    exact hkeyword rfl (by decide) (by decide) (by decide)

/-! ## What stands behind a statement -/

/-- Whether a statement can have a symbol behind it. -/
structure Statement.StopsAt (s : Statement) (x : Symbol) : Prop where
  follows : x.followsStatement = true
  paren : s.endsOpen = true → x ≠ .leftParen

namespace Symbol

theorem followsStatement_of_endsBlock {x : Symbol} (h : x.endsBlock = true) :
    x.followsStatement = true := by
  rw [followsStatement, h, Bool.or_true]

theorem ofSymbol?_of_followsStatement {x : Symbol} (h : x.followsStatement = true) :
    BinaryOperator.ofSymbol? x = none := by
  have hall : ∀ x ∈ all, x.followsStatement = true → BinaryOperator.ofSymbol? x = none := by decide
  exact hall x (mem_all x) h

end Symbol

theorem Statement.StopsAt.semicolon (s : Statement) : s.StopsAt .semicolon :=
  ⟨rfl, fun _ => by decide⟩

theorem Statement.StopsAt.of_endsBlock {s : Statement} {x : Symbol} (h : x.endsBlock = true) :
    s.StopsAt x where
  follows := Symbol.followsStatement_of_endsBlock h
  paren _ hx := by
    rw [hx] at h
    cases h

/-- A statement stops before what its block goes on with. -/
theorem begins_behind {s : Statement} {ss : List Statement} {R : Language Letter}
    (hs : s.isLast = false) (hR : Begins R s.StopsAt) :
    Begins (Spelling.trail s * (Spelling.statements (some s) ss * R)) s.StopsAt := by
  have hrest : Begins (Spelling.statements (some s) ss * R) s.StopsAt := by
    cases ss with
    | nil =>
      rwa [Spelling.statements, one_mul]
    | cons t ts =>
      rw [Spelling.statements]
      simp only [mul_assoc]
      unfold Spelling.separation
      split
      · exact .symbol (.semicolon s)
      · next hsep =>
        rw [one_mul]
        refine (begins_statement t _).mono fun x hx => ⟨?_, fun hopen hparen => hsep ?_⟩
        · rw [Symbol.followsStatement, hx.begins, Bool.or_true, Bool.true_or]
        · rw [hx.paren hparen, Option.any_some, hopen, Bool.and_true]
  rw [Spelling.trail_of_open hs]
  exact .semicolons (.semicolon s) hrest

theorem begins_block (b : Block) : Begins (Spelling.block b) (·.followsStatement = true) := by
  obtain ⟨ss, span⟩ := b
  rw [Spelling.block]
  refine .semicolons rfl ?_
  cases ss with
  | nil =>
    intro u hu
    rw [Spelling.statements, Language.mem_one] at hu
    rw [hu]
    rfl
  | cons s ss =>
    rw [Spelling.statements]
    simp only [mul_assoc]
    rw [Spelling.separation, Option.any_none, Bool.false_and, if_neg Bool.false_ne_true, one_mul]
    refine (begins_statement s _).mono fun x hx => ?_
    rw [Symbol.followsStatement, hx.begins, Bool.or_true, Bool.true_or]

/-! ## Second symbols -/

/-- Whether no word begins with a name and the sign behind a key. -/
def NoKey (L : Language Letter) : Prop :=
  ∀ u ∈ L, headSymbol u = .name → headSymbol u.tail ≠ .assign

theorem NoKey.of_begins {L : Language Letter} (h : Begins L (· ≠ .name)) : NoKey L :=
  fun u hu hname => absurd hname (h u hu)

theorem tail_mem {p : Letter → Prop} {M : Language Letter} {u : List Letter}
    (h : u ∈ Spelling.letter p * M) : u.tail ∈ M := by
  obtain ⟨_, ⟨c, -, rfl⟩, v, hv, rfl⟩ := Language.mem_mul.1 h
  exact hv

mutual

theorem noKey_primary (p : Primary) {M : Language Letter} (hM : Begins M (· ≠ .assign)) :
    NoKey (Spelling.primary p * M) :=
  match p with
  | .var v => by
    rw [Spelling.primary]
    exact noKey_target v hM
  | .call c => by
    rw [Spelling.primary]
    exact noKey_call c
  | .parenthesized e _ => by
    rw [Spelling.primary, mul_assoc, mul_assoc]
    exact .of_begins (.symbol (by decide))

theorem noKey_target (v : Variable) {M : Language Letter} (hM : Begins M (· ≠ .assign)) :
    NoKey (Spelling.target v * M) :=
  match v with
  | .name n => by
    rw [Spelling.target]
    exact fun u hu _ => hM _ (tail_mem hu)
  | .index base key _ => by
    rw [Spelling.target, mul_assoc, mul_assoc, mul_assoc]
    exact noKey_primary base (.symbol (by decide))
  | .member base n _ => by
    rw [Spelling.target, mul_assoc, mul_assoc]
    exact noKey_primary base (.symbol (by decide))

theorem noKey_call (c : Call) {M : Language Letter} : NoKey (Spelling.call c * M) :=
  match c with
  | .function callee args _ => by
    rw [Spelling.call, mul_assoc]
    refine noKey_primary callee ((begins_arguments args M).mono ?_)
    rintro s (rfl | rfl | rfl) <;> decide
  | .method receiver n args _ => by
    rw [Spelling.call, mul_assoc, mul_assoc, mul_assoc]
    exact noKey_primary receiver (.symbol (by decide))

end

/-- A value that no key stands before does not look like one. -/
theorem noKey_expression (e : Expression) {M : Language Letter} (hM : Begins M (· ≠ .assign)) :
    NoKey (Spelling.expression e * M) :=
  match e with
  | .primary p => by
    rw [Spelling.expression]
    exact noKey_primary p hM
  | .binary op left right _ => by
    rw [Spelling.expression, mul_assoc, mul_assoc]
    exact noKey_expression left (.symbol (by cases op <;> decide))
  | .unary op operand _ => by
    rw [Spelling.expression, mul_assoc]
    exact .of_begins (.symbol (by cases op <;> decide))
  | .table t => by
    rw [Spelling.expression]
    exact .of_begins ((begins_table t M).mono fun s hs => by rw [hs]; decide)
  | .nil _ => by
    rw [Spelling.expression]
    exact .of_begins (.symbol (by decide))
  | .boolean value _ => by
    rw [Spelling.expression]
    exact .of_begins (.symbol (by cases value <;> decide))
  | .number value _ => by
    rw [Spelling.expression]
    exact .of_begins (.letter fun c hc => by rw [hc.1]; decide)
  | .string value _ => by
    rw [Spelling.expression]
    exact .of_begins (.letter fun c hc => by rw [hc.1]; decide)
  | .varargs _ => by
    rw [Spelling.expression]
    exact .of_begins (.symbol (by decide))
  | .function body _ => by
    rw [Spelling.expression, mul_assoc]
    exact .of_begins (.symbol (by decide))

end LuaSource
