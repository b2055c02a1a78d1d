-- SUMMARY: Where the statements of a laid out block stand, and the children of all other nodes.
import LuaSource.Proofs.Format.Printed
import LuaSource.Proofs.Grammar.Beginnings
import LuaSource.Proofs.Grammar.Relaxed

/-!
# Stacks of statements

Each statement of a block is printed on a line of its own, behind the indentation and perhaps a
semicolon, and the next line begins where it ends. The parts that blocks are laid out in, such as
the clauses of a conditional, are read off the layout here too.
-/

namespace LuaSource

/-! ## Blanks -/

theorem Position.after_replicate_space (p : Position) (n : Nat) :
    p.after (List.replicate n ' ') = ⟨p.line, p.column + n, p.offset + n⟩ := by
  induction n generalizing p with
  | zero => rfl
  | succ n ih =>
    have hnext : p.next ' ' (List.replicate n ' ') = ⟨p.line, p.column + 1, p.offset + 1⟩ := rfl
    rw [List.replicate_succ, after_cons, hnext, ih]
    simp only [Nat.add_assoc, Nat.add_comm 1 n]

namespace Printing

open Placing

/-! ## Lines -/

/-- Where a statement begins in the line that starts at `p`. -/
def lineStart (depth : Nat) (semicolon : Bool) (p : Position) : Position :=
  let q := p.after (Piece.indent depth).text
  if semicolon then q.after (Piece.symbol .semicolon).text else q

theorem line_lineStart (depth : Nat) (semicolon : Bool) (p : Position) :
    (lineStart depth semicolon p).line = p.line := by
  have hindent : (Piece.indent depth).text = List.replicate (2 * depth) ' ' := rfl
  rw [lineStart, hindent, Position.after_replicate_space]
  cases semicolon <;> rfl

theorem column_lineStart (depth : Nat) (semicolon : Bool) (p : Position) :
    (lineStart depth semicolon p).column =
      p.column + 2 * depth + if semicolon then 1 else 0 := by
  have hindent : (Piece.indent depth).text = List.replicate (2 * depth) ' ' := rfl
  rw [lineStart, hindent, Position.after_replicate_space]
  cases semicolon <;> rfl

/-- The first piece is a token, which is no semicolon. -/
def Opens (ps : List Piece) : Prop :=
  ∃ x l k, ps = x :: k ∧ x.lexeme? = some l ∧ l.symbol ≠ .semicolon

theorem Opens.eq_nil {ps : List Piece} (h : Opens ps) {p : Position} {x w : List Mark}
    (hx : ∀ c ∈ x, c.symbol = .semicolon)
    (htokens : Piece.tokens p ps = (x ++ w).map Mark.toToken) : x = [] := by
  obtain ⟨y, l, k, rfl, hl, hne⟩ := h
  rw [Piece.tokens_of_lexeme hl] at htokens
  cases x with
  | nil => rfl
  | cons c x =>
    have hc := congrArg (·.symbol) (List.cons.inj htokens).1
    exact absurd (hc.trans (hx c List.mem_cons_self)) hne

theorem Opens.start_eq {ps : List Piece} (h : Opens ps) {p : Position} {w : List Mark}
    (htokens : Piece.tokens p ps = w.map Mark.toToken) : ∃ c ∈ w.head?, c.span.start = p := by
  obtain ⟨y, l, k, rfl, hl, -⟩ := h
  rw [Piece.tokens_of_lexeme hl] at htokens
  cases w with
  | nil => cases htokens
  | cons c w => exact ⟨c, rfl, congrArg (·.span.start) (List.cons.inj htokens).1.symm⟩

/-- Of the semicolons that a word may begin with, a line has the one that it is written with. -/
theorem tokens_line {ps : List Piece} (hps : Opens ps) {depth : Nat} {semicolon : Bool}
    {p : Position} {x w : List Mark} (hx : ∀ c ∈ x, c.symbol = .semicolon)
    (hw : ∀ c ∈ w.head?, c.symbol ≠ .semicolon)
    (h : Piece.tokens p (.indent depth ::
      if semicolon then .symbol .semicolon :: ps else ps) = (x ++ w).map Mark.toToken) :
    Piece.tokens (lineStart depth semicolon p) ps = w.map Mark.toToken := by
  rw [Piece.tokens_of_blank rfl] at h
  cases semicolon with
  | false =>
    obtain rfl := hps.eq_nil hx h
    exact h
  | true =>
    rw [if_pos rfl, Piece.tokens_of_lexeme rfl] at h
    cases x with
    | nil =>
      cases w with
      | nil => cases h
      | cons c w =>
        have hc := congrArg (·.symbol) (List.cons.inj h).1
        exact absurd hc.symm (hw c rfl)
    | cons c x =>
      have htail := (List.cons.inj h).2
      obtain rfl := hps.eq_nil (fun d hd => hx d (List.mem_cons_of_mem c hd)) htail
      exact htail

/-- Statements that are printed on lines of their own, the first of which starts at `p`. Behind the
last of them the line `q` starts. -/
def Stack (depth : Nat) (first : Bool) (p : Position) : List Statement → Position → Prop
  | [], q => p = q
  | s :: ss, q =>
    s.span.start = lineStart depth (!first && s.startsWithParen) p ∧
      s.span.start.line ≤ s.span.stop.line ∧
      Printed depth (.statement s) s.span.start s.span.stop.line ∧
      Stack depth false (s.span.stop.after ['\n']) ss q

/-! ## Semicolons -/

theorem symbol_of_semicolons {u : List Mark} (hu : u ∈ marked Spelling.semicolons) :
    ∀ c ∈ u, c.symbol = .semicolon := by
  obtain ⟨ws, hws, hall⟩ := Language.mem_kstar.1 hu
  intro c hc
  have hletter : c.toLetter ∈ ws.flatten := hws ▸ List.mem_map_of_mem hc
  obtain ⟨w, hw, hcw⟩ := List.mem_flatten.1 hletter
  obtain ⟨e, he, rfl⟩ := hall w hw
  rw [List.mem_singleton] at hcw
  rw [← hcw] at he
  exact he

theorem separation_le_semicolons (before : Option Statement) (s : Statement) :
    Spelling.separation before s ≤ Spelling.semicolons := by
  unfold Spelling.separation
  split
  · exact le_kstar
  · exact Spelling.one_le_semicolons

theorem trail_le_semicolons (s : Statement) : Spelling.trail s ≤ Spelling.semicolons := by
  unfold Spelling.trail
  split
  · exact add_le Spelling.one_le_semicolons le_kstar
  · exact le_rfl

/-- No statement begins with a semicolon. -/
theorem head_ne_semicolon {s : Statement} {u : List Mark} (hu : u ∈ statement s) :
    u ≠ [] ∧ ∀ c ∈ u.head?, c.symbol ≠ .semicolon := by
  have hletters := relaxes_statement s u hu _ (List.forall₂_same.2 fun c _ => .refl c)
  rw [← mul_one (Spelling.statement s)] at hletters
  have hbegins := (begins_statement s 1 _ hletters).begins
  cases u with
  | nil => cases hbegins
  | cons c u =>
    refine ⟨List.cons_ne_nil c u, ?_⟩
    rintro _ ⟨⟩ hc
    rw [List.map_cons, headSymbol_cons, hc] at hbegins
    cases hbegins

/-! ## First pieces -/

variable {d : Nat} {k : List Piece}

theorem opens_name (n : Name) : Opens (.name n.text :: k) := ⟨_, _, _, rfl, rfl, nofun⟩

theorem opens_symbol {x : Symbol} (hx : x ≠ .semicolon) : Opens (.symbol x :: k) :=
  ⟨_, _, _, rfl, rfl, hx⟩

mutual

theorem opens_primary (p : Primary) {k : List Piece} : Opens (Layout.primary d p k) :=
  match p with
  | .var v => by
    rw [Layout.primary]
    exact opens_target v
  | .call c => by
    rw [Layout.primary]
    exact opens_call c
  | .parenthesized _ _ => by
    rw [Layout.primary]
    exact opens_symbol nofun

theorem opens_target (v : Variable) {k : List Piece} : Opens (Layout.target d v k) :=
  match v with
  | .name n => by
    rw [Layout.target]
    exact opens_name n
  | .index base _ _ | .member base _ _ => by
    rw [Layout.target]
    exact opens_primary base

theorem opens_call (c : Call) {k : List Piece} : Opens (Layout.call d c k) :=
  match c with
  | .function callee _ _ => by
    rw [Layout.call]
    exact opens_primary callee
  | .method receiver _ _ _ => by
    rw [Layout.call]
    exact opens_primary receiver

end

theorem opens_statement {s : Statement} {u : List Mark} (hu : u ∈ statement s) :
    Opens (Layout.statement d s k) := by
  cases s with
  | assign vs es span =>
    cases vs with
    | nil =>
      rw [statement, targets, zero_mul, zero_mul] at hu
      exact absurd hu.1 (Language.notMem_zero u)
    | cons v vs =>
      rw [Layout.statement, Layout.targets]
      exact opens_target v
  | call c =>
    rw [Layout.statement]
    exact opens_call c
  | conditional cs b span =>
    cases cs with
    | nil =>
      rw [statement, clauses, zero_mul, zero_mul] at hu
      exact absurd hu.1 (Language.notMem_zero u)
    | cons c cs =>
      obtain ⟨e, body, span⟩ := c
      cases b <;> exact opens_symbol (x := .kwIf) (by decide)
  | numericFor n start limit e b span => cases e <;> exact opens_symbol (by decide)
  | localAssign ns es span | returnValues es span => cases es <;> exact opens_symbol (by decide)
  | _ => exact opens_symbol (by decide)

/-! ## Stacks -/

/-- If the pieces begin with the tokens of a word, then the statements are stacked along the word,
and behind it come the pieces `k`. -/
def Stacks (depth : Nat) (L : Language Mark) (first : Bool) (ss : List Statement)
    (ps k : List Piece) : Prop :=
  ∀ p, ∀ u ∈ L, ∀ v : List Mark, Piece.tokens p ps = (u ++ v).map Mark.toToken →
    ∃ q, Piece.tokens q k = v.map Mark.toToken ∧ Stack depth first p ss q

theorem Stack.le {first : Bool} {p q : Position} {ss : List Statement}
    (h : Stack d first p ss q) : p.line ≤ q.line ∧ ∀ s ∈ ss, s.span.stop.line ≤ q.line := by
  induction ss generalizing first p with
  | nil =>
    cases h
    exact ⟨Nat.le_refl _, nofun⟩
  | cons s ss ih =>
    obtain ⟨hstart, hle, -, h⟩ := h
    obtain ⟨hq, hss⟩ := ih h
    have hline : s.span.stop.line + 1 ≤ q.line := hq
    rw [hstart, line_lineStart] at hle
    exact ⟨by omega, List.forall_mem_cons.2 ⟨by omega, hss⟩⟩

/-- Nothing is in front of what comes behind no statements. -/
theorem stacks_nil (hk : NoSemicolon k) {before : Option Statement} {first : Bool} :
    Stacks d (marked Spelling.semicolons * statements before []) first [] k k := by
  intro p u hu v hv
  rw [statements, mul_one] at hu
  cases u with
  | nil => exact ⟨p, hv, rfl⟩
  | cons c u =>
    refine absurd (symbol_of_semicolons hu c List.mem_cons_self) (hk p c.toToken ?_)
    rw [hv]
    rfl

/-- A statement stands in the first line, and the others in those behind it. -/
theorem stacks_cons {before : Option Statement} {s : Statement} {ss : List Statement}
    (hs : ∀ k, Fits d (statement s) s.children (Layout.statement d s k) k)
    (hss : Stacks d (marked Spelling.semicolons * statements (some s) ss) false ss
      (Layout.statements d false ss k) k) :
    Stacks d (marked Spelling.semicolons * statements before (s :: ss)) before.isNone (s :: ss)
      (Layout.statements d before.isNone (s :: ss) k) k := by
  intro p u hu v hv
  rw [statements, mul_assoc, mul_assoc, ← mul_assoc] at hu
  obtain ⟨x, hx, y, hy, rfl⟩ := Language.mem_mul.1 hu
  obtain ⟨w, hw, z, hz, rfl⟩ := Language.mem_mul.1 hy
  have hsemicolons : x ∈ marked Spelling.semicolons := by
    refine marked_mono ?_ (marked_mul_le _ _ hx)
    refine (mul_le_mul_right (separation_le_semicolons before s) _).trans ?_
    exact (kstar_mul_kstar _).le
  have htrail : z ∈ marked Spelling.semicolons * statements (some s) ss :=
    mul_le_mul_left (marked_mono (trail_le_semicolons s)) _ hz
  obtain ⟨hne, hhead⟩ := head_ne_semicolon hw
  rw [Layout.statements, List.append_assoc, List.append_assoc] at hv
  have hline := tokens_line (opens_statement hw) (symbol_of_semicolons hsemicolons)
    (w := w ++ (z ++ v)) (by rwa [List.head?_append_of_ne_nil _ hne]) hv
  obtain ⟨q, hq, hrow, c, hc, hstop⟩ := hs _ _ w hw (z ++ v) hline
  obtain ⟨⟨e, he, hstart⟩, e', he', hend⟩ := fills_statement s w hw
  obtain rfl := Option.mem_unique hc he'
  obtain ⟨e', he', hlineStart⟩ := (opens_statement hw).start_eq hline
  rw [List.head?_append_of_ne_nil _ hne] at he'
  obtain rfl := Option.mem_unique he he'
  obtain rfl := hstop.symm.trans hend
  rw [← hlineStart, hstart] at hline hrow
  rw [Piece.tokens_of_blank rfl] at hq
  obtain ⟨r, hr, hstack⟩ := hss _ z htrail v hq
  refine ⟨r, hr, hstart.symm.trans hlineStart, hrow.le, ?_, hstack⟩
  exact ⟨_, w, z ++ v, p, trivial, hw, hline, Nat.le_refl _⟩

/-! ## Blocks -/

theorem noSemicolon_symbol {x : Symbol} (hx : x ≠ .semicolon) : NoSemicolon (.symbol x :: k) := by
  rintro p t ht
  rw [Piece.tokens_of_lexeme rfl] at ht
  cases ht
  exact hx

theorem noSemicolon_indent (hk : NoSemicolon k) : NoSemicolon (.indent d :: k) := by
  intro p t ht
  rw [Piece.tokens_of_blank rfl] at ht
  exact hk _ t ht

theorem noSemicolon_closing : NoSemicolon (Layout.closing d k) :=
  noSemicolon_indent (noSemicolon_symbol nofun)

/-- A block begins on the line behind the one that leads to it. -/
theorem Stacks.lays {b : Block} {start : Position}
    (hb : Stacks (d + 1) (block start b) true b.statements (Layout.block (d + 1) b k) k)
    (hk : NoSemicolon k) :
    Lays d (block start b) [.block b] (.newline :: Layout.block (d + 1) b k) k := by
  intro p u hu v hv
  rw [Piece.tokens_of_blank rfl] at hv
  obtain ⟨q, hq, hstack⟩ := hb _ u hu v hv
  obtain ⟨hle, hstop⟩ := hstack.le
  refine ⟨q, hq, p.after ['\n'], q.line, ⟨Nat.lt_succ_self _, rfl⟩, hle, ?_, Nat.le_refl _⟩
  exact ⟨k, u, v, start, hk, hu, hv, hstop⟩

section

variable {b : Block}
  (hb : ∀ {start k}, NoSemicolon k →
    Stacks (d + 1) (block start b) true b.statements (Layout.block (d + 1) b k) k)
include hb

/-- A block behind a keyword. -/
theorem lays_body {x : Symbol} (hk : NoSemicolon k) :
    Lays d (behind x fun c => block c.next b) [.block b]
      (.symbol x :: .newline :: Layout.block (d + 1) b k) k :=
  .behind fun _ => (hb hk).lays hk

/-- A block between a keyword and its `end`. -/
theorem fits_body {x : Symbol} :
    Fits d ((behind x fun c => block c.next b) * symbol .kwEnd) [.block b]
      (.symbol x :: .newline :: Layout.block (d + 1) b (Layout.closing d k)) k :=
  .stop (lays_body hb noSemicolon_closing) fits_closing

/-- A clause from its keyword on. -/
theorem lays_clause {e : Expression} {span : Span} {x : Symbol}
    (he : ∀ k, Fits d (expression e) [.expression e] (Layout.expression d e k) k)
    (hk : NoSemicolon k) :
    Lays d (behind x fun keyword => clause keyword.span ⟨e, b, span⟩)
      (Clause.children ⟨e, b, span⟩)
      (Layout.word x (Layout.expression d e
        (.space :: .symbol .kwThen :: .newline :: Layout.block (d + 1) b (.indent d :: k)))) k := by
  refine .behind fun keyword => .blank rfl ?_
  rw [clause]
  refine (he _).lays.mul (.blank rfl (.blank_right (x := .indent d) rfl (.behind fun c => ?_)))
  exact .of_le (provided_le _ _) ((hb (noSemicolon_indent hk)).lays (noSemicolon_indent hk))

end

theorem noSemicolon_moreClauses (cs : List Clause) (hk : NoSemicolon k) :
    NoSemicolon (Layout.conditional d .kwElseif cs k) := by
  cases cs with
  | nil =>
    rw [Layout.conditional]
    exact hk
  | cons c cs =>
    obtain ⟨e, b, span⟩ := c
    rw [Layout.conditional]
    exact noSemicolon_symbol (by decide)

/-! ## Fields -/

theorem exists_of_fieldSeparator {u : List Mark} (hu : u ∈ marked Spelling.fieldSeparator) :
    ∃ c, u = [c] ∧ (c.symbol = .comma ∨ c.symbol = .semicolon) := by
  rcases (Language.mem_add _ _ _).1 hu with ⟨e, he, hue⟩ | ⟨e, he, hue⟩
  all_goals
    obtain ⟨c, rfl, rfl⟩ := List.map_eq_singleton_iff.1 hue
  · exact ⟨c, rfl, .inl he⟩
  · exact ⟨c, rfl, .inr he⟩

theorem lays_fieldSeparator :
    Lays d (marked Spelling.fieldSeparator) [] (.symbol .comma :: k) k := by
  intro p u hu v hv
  obtain ⟨c, rfl, -⟩ := exists_of_fieldSeparator hu
  exact ⟨_, (List.cons.inj hv).2, p.line_le_after _⟩

/-- No separator is written behind the last field. -/
theorem fits_closingBrace :
    Fits d ((marked Spelling.fieldSeparator * fields [] + 1) * symbol .rightBrace) []
      (.space :: .symbol .rightBrace :: k) k := by
  refine .blank rfl fun p u hu v hv => ?_
  rw [add_mul, one_mul] at hu
  rcases (Language.mem_add _ _ _).1 hu with hu | hu
  · obtain ⟨_, hx, w, -, rfl⟩ := Language.mem_mul.1 (mul_assoc (marked _) (fields []) _ ▸ hu)
    obtain ⟨c, rfl, hc⟩ := exists_of_fieldSeparator hx
    have hbrace := congrArg (·.symbol) (List.cons.inj hv).1
    rcases hc with hc | hc <;> rw [hc] at hbrace <;> cases hbrace
  · exact Fits.symbol p u hu v hv

end Printing

end LuaSource
