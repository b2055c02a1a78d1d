-- SUMMARY: Nodes whose words are what their layout writes, and the rules to find those of their children.
import LuaSource.Format
import LuaSource.Proofs.Format.Legible
import LuaSource.Proofs.Grammar.PlacedSpans

/-!
# Printed nodes

A node is printed where its layout writes the tokens of one of its words. What is written behind it
is then written behind the word, so that along the layout of a node each of its children is printed
in turn. Of the lines they stand on it is kept that they do not go back, and that blocks and
statements begin lines of their own.
-/

namespace LuaSource

namespace Node

/-- One for a block. -/
def levels : Node → Nat
  | block _ => 1
  | _ => 0

/-- How many blocks there are around the block that a child stands in or is. -/
def depthIn (depth : Nat) : Node → Nat
  | block _ => depth + 1
  | _ => depth

/-- A block or a statement begins on a line behind `line`, and a block at its start. All else may
begin on that line. -/
def BeginsBehind (line : Nat) (p : Position) : Node → Prop
  | block _ => line < p.line ∧ p.column = 1
  | statement _ => line < p.line
  | _ => line ≤ p.line

/-- No statement of a block ends behind `line`, and no other node does. -/
def EndsBy (line : Nat) : Node → Prop
  | block b => ∀ s ∈ b.statements, s.span.stop.line ≤ line
  | n => n.span.stop.line ≤ line

/-- Whether a node may begin and end within a line. -/
def isInline : Node → Bool
  | block _ | statement _ => false
  | _ => true

end Node

namespace Layout

/-- A node before other pieces. -/
def node (depth : Nat) : Node → List Piece → List Piece
  | .block b => block depth b
  | .statement s => statement depth s
  | .expression e => expression depth e
  | .primary p => primary depth p
  | .target v => target depth v
  | .call c => call depth c
  | .arguments a => arguments depth a
  | .field f => field depth f
  | .functionBody f => functionBody depth f
  | .name n => (.name n.text :: ·)

end Layout

namespace Printing

open Placing

/-- The first token that pieces write, if there is one, is no semicolon. -/
def NoSemicolon (k : List Piece) : Prop :=
  ∀ p, ∀ t ∈ (Piece.tokens p k).head?, t.symbol ≠ .semicolon

/-- What has to be known of the pieces behind a node. A semicolon would be taken for one of those
that end a block. -/
def Follow : Node → List Piece → Prop
  | .block _, k => NoSemicolon k
  | _, _ => True

/-- Before some pieces the layout of a node at `p` writes a word of the node. It goes on to `line` at
most. -/
def Printed (depth : Nat) (n : Node) (p : Position) (line : Nat) : Prop :=
  ∃ k u v start, Follow n k ∧ u ∈ nodeAt start n ∧
    Piece.tokens p (Layout.node depth n k) = (u ++ v).map Mark.toToken ∧ n.EndsBy line

/-! ## Rows -/

/-- Nodes are printed one behind the other, from line `a` on up to line `b`. -/
def Row (depth : Nat) : Nat → List Node → Nat → Prop
  | a, [], b => a ≤ b
  | a, n :: ns, b =>
    ∃ p line, n.BeginsBehind a p ∧ p.line ≤ line ∧ Printed (n.depthIn depth) n p line ∧
      Row depth line ns b

variable {d a b c : Nat} {n : Node} {ns ms : List Node}

theorem le_of_beginsBehind {p : Position} (h : n.BeginsBehind a p) : a ≤ p.line := by
  cases n with
  | block b => exact Nat.le_of_lt h.1
  | statement s => exact Nat.le_of_lt h
  | _ => exact h

theorem beginsBehind_mono {p : Position} (hab : a ≤ b) (h : n.BeginsBehind b p) :
    n.BeginsBehind a p := by
  cases n with
  | block b => exact ⟨Nat.lt_of_le_of_lt hab h.1, h.2⟩
  | statement s => exact Nat.lt_of_le_of_lt hab h
  | _ => exact Nat.le_trans hab h

namespace Row

theorem le (h : Row d a ns b) : a ≤ b := by
  induction ns generalizing a with
  | nil => exact h
  | cons n ns ih =>
    obtain ⟨p, line, hbegins, hle, -, h⟩ := h
    exact Nat.le_trans (le_of_beginsBehind hbegins) (Nat.le_trans hle (ih h))

theorem mono_left (hab : a ≤ b) (h : Row d b ns c) : Row d a ns c := by
  cases ns with
  | nil => exact Nat.le_trans hab h
  | cons n ns =>
    obtain ⟨p, line, hbegins, h⟩ := h
    exact ⟨p, line, beginsBehind_mono hab hbegins, h⟩

theorem mono_right (h : Row d a ns b) (hbc : b ≤ c) : Row d a ns c := by
  induction ns generalizing a with
  | nil => exact Nat.le_trans h hbc
  | cons n ns ih =>
    obtain ⟨p, line, hbegins, hle, hprinted, h⟩ := h
    exact ⟨p, line, hbegins, hle, hprinted, ih h⟩

theorem append (h : Row d a ns b) (h' : Row d b ms c) : Row d a (ns ++ ms) c := by
  induction ns generalizing a with
  | nil => exact h'.mono_left h
  | cons n ns ih =>
    obtain ⟨p, line, hbegins, hle, hprinted, h⟩ := h
    exact ⟨p, line, hbegins, hle, hprinted, ih h⟩

theorem printed (h : Row d a ns b) (hn : n ∈ ns) :
    ∃ p line, n.BeginsBehind a p ∧ p.line ≤ line ∧ Printed (n.depthIn d) n p line := by
  induction ns generalizing a with
  | nil => exact absurd hn List.not_mem_nil
  | cons m ns ih =>
    obtain ⟨p, line, hbegins, hle, hprinted, h⟩ := h
    rcases List.mem_cons.1 hn with rfl | hn
    · exact ⟨p, line, hbegins, hle, hprinted⟩
    · obtain ⟨q, line', hq, hprinted'⟩ := ih h hn
      have hline := Nat.le_trans (le_of_beginsBehind hbegins) hle
      exact ⟨q, line', beginsBehind_mono hline hq, hprinted'⟩

end Row

/-! ## Words and layouts -/

/-- If the pieces begin with the tokens of a word, then nodes are printed along the word, and behind
it come the pieces `k`. -/
def Lays (depth : Nat) (L : Language Mark) (ns : List Node) (ps k : List Piece) : Prop :=
  ∀ p, ∀ u ∈ L, ∀ v : List Mark, Piece.tokens p ps = (u ++ v).map Mark.toToken →
    ∃ q, Piece.tokens q k = v.map Mark.toToken ∧ Row depth p.line ns q.line

/-- The pieces `k` come right behind the last token of the word. -/
def Fits (depth : Nat) (L : Language Mark) (ns : List Node) (ps k : List Piece) : Prop :=
  ∀ p, ∀ u ∈ L, ∀ v : List Mark, Piece.tokens p ps = (u ++ v).map Mark.toToken →
    ∃ q, Piece.tokens q k = v.map Mark.toToken ∧ Row depth p.line ns q.line ∧
      ∃ c ∈ u.getLast?, c.span.stop = q

variable {K L : Language Mark} {ps k k' : List Piece} {s : Symbol}

namespace Lays

theorem of_le (hKL : K ≤ L) (h : Lays d L ns ps k) : Lays d K ns ps k :=
  fun p u hu => h p u (hKL hu)

theorem nothing : Lays d 1 [] k k := by
  intro p u hu v h
  obtain rfl := (Language.mem_one u).1 hu
  exact ⟨p, h, Nat.le_refl _⟩

theorem zero : Lays d 0 ns ps k := fun _ u hu => absurd hu (Language.notMem_zero u)

theorem mul (hK : Lays d K ns ps k') (hL : Lays d L ms k' k) : Lays d (K * L) (ns ++ ms) ps k := by
  intro p u hu v h
  obtain ⟨x, hx, y, hy, rfl⟩ := Language.mem_mul.1 hu
  rw [List.append_assoc] at h
  obtain ⟨q, hq, hrow⟩ := hK p x hx (y ++ v) h
  obtain ⟨r, hr, hrow'⟩ := hL q y hy v hq
  exact ⟨r, hr, hrow.append hrow'⟩

/-- Words that no node belongs to may stand before the others. -/
theorem skip (hK : Lays d K [] ps k') (hL : Lays d L ns k' k) : Lays d (K * L) ns ps k := hK.mul hL

/-- Words that no node belongs to may stand behind the others. -/
theorem stop (hK : Lays d K ns ps k') (hL : Lays d L [] k' k) : Lays d (K * L) ns ps k := by
  rw [← List.append_nil ns]
  exact hK.mul hL

/-- Blanks may stand before a word. -/
theorem blank {x : Piece} (hx : x.lexeme? = none) (h : Lays d L ns ps k) :
    Lays d L ns (x :: ps) k := by
  intro p u hu v hv
  rw [Piece.tokens_of_blank hx] at hv
  obtain ⟨q, hq, hrow⟩ := h _ u hu v hv
  exact ⟨q, hq, hrow.mono_left (p.line_le_after x.text)⟩

/-- Blanks may stand behind a word. -/
theorem blank_right {x : Piece} (hx : x.lexeme? = none) (h : Lays d L ns ps (x :: k)) :
    Lays d L ns ps k := by
  intro p u hu v hv
  obtain ⟨q, hq, hrow⟩ := h p u hu v hv
  rw [Piece.tokens_of_blank hx] at hq
  exact ⟨_, hq, hrow.mono_right (q.line_le_after x.text)⟩

/-- Behind a keyword. -/
theorem behind {L : Mark → Language Mark} (h : ∀ c, Lays d (L c) ns ps k) :
    Lays d (behind s L) ns (.symbol s :: ps) k := by
  rintro p u ⟨c, w, -, hw, rfl⟩ v hv
  rw [Piece.tokens_of_lexeme rfl] at hv
  obtain ⟨q, hq, hrow⟩ := h c _ w hw v (List.cons.inj hv).2
  exact ⟨q, hq, hrow.mono_left (p.line_le_after _)⟩

end Lays

namespace Fits

theorem lays (h : Fits d L ns ps k) : Lays d L ns ps k := by
  intro p u hu v hv
  obtain ⟨q, hq, hrow, -⟩ := h p u hu v hv
  exact ⟨q, hq, hrow⟩

theorem of_le (hKL : K ≤ L) (h : Fits d L ns ps k) : Fits d K ns ps k :=
  fun p u hu => h p u (hKL hu)

theorem zero : Fits d 0 ns ps k := fun _ u hu => absurd hu (Language.notMem_zero u)

theorem mul (hK : Lays d K ns ps k') (hL : Fits d L ms k' k) : Fits d (K * L) (ns ++ ms) ps k := by
  intro p u hu v h
  obtain ⟨x, hx, y, hy, rfl⟩ := Language.mem_mul.1 hu
  rw [List.append_assoc] at h
  obtain ⟨q, hq, hrow⟩ := hK p x hx (y ++ v) h
  obtain ⟨r, hr, hrow', c, hc, hstop⟩ := hL q y hy v hq
  refine ⟨r, hr, hrow.append hrow', c, ?_, hstop⟩
  rw [List.getLast?_append, Option.mem_def.1 hc]
  rfl

theorem skip (hK : Lays d K [] ps k') (hL : Fits d L ns k' k) : Fits d (K * L) ns ps k := mul hK hL

theorem stop (hK : Lays d K ns ps k') (hL : Fits d L [] k' k) : Fits d (K * L) ns ps k := by
  rw [← List.append_nil ns]
  exact mul hK hL

theorem blank {x : Piece} (hx : x.lexeme? = none) (h : Fits d L ns ps k) :
    Fits d L ns (x :: ps) k := by
  intro p u hu v hv
  rw [Piece.tokens_of_blank hx] at hv
  obtain ⟨q, hq, hrow, hlast⟩ := h _ u hu v hv
  exact ⟨q, hq, hrow.mono_left (p.line_le_after x.text), hlast⟩

/-- A piece with a token of its own. -/
theorem piece {x : Piece} {l : Lexeme} {P : Letter → Prop} (hl : x.lexeme? = some l) :
    Fits d (marked (Spelling.letter P)) [] (x :: k) k := by
  rintro p u ⟨e, -, he⟩ v hv
  obtain ⟨c, rfl, -⟩ := List.map_eq_singleton_iff.1 he
  rw [Piece.tokens_of_lexeme hl] at hv
  obtain ⟨hc, htail⟩ := List.cons.inj hv
  exact ⟨_, htail, p.line_le_after _, c, rfl, congrArg (·.span.stop) hc.symm⟩

theorem symbol : Fits d (Placing.symbol s) [] (.symbol s :: k) k := piece rfl

end Fits

/-! ## Single nodes -/

theorem beginsBehind_of_isInline (hn : n.isInline = true) {p : Position} (h : a ≤ p.line) :
    n.BeginsBehind a p := by
  cases n with
  | block b => cases hn
  | statement s => cases hn
  | _ => exact h

theorem endsBy_of_isInline (hn : n.isInline = true) (h : n.span.stop.line ≤ a) : n.EndsBy a := by
  cases n with
  | block b => cases hn
  | _ => exact h

theorem follow_of_isInline (hn : n.isInline = true) (k : List Piece) : Follow n k := by
  cases n with
  | block b => cases hn
  | _ => trivial

theorem depthIn_of_isInline (hn : n.isInline = true) (depth : Nat) : n.depthIn depth = depth := by
  cases n with
  | block b => cases hn
  | _ => rfl

theorem levels_of_isInline (hn : n.isInline = true) : n.levels = 0 := by
  cases n with
  | block b => cases hn
  | _ => rfl

theorem nodeAt_of_levels (hn : n.levels = 0) (p : Position) : nodeAt p n = Placing.node n := by
  cases n with
  | block b => cases hn
  | _ => rfl

theorem fills_of_levels (hn : n.levels = 0) : ∀ u ∈ Placing.node n, Fills u n.span := by
  cases n with
  | block b => cases hn
  | statement s => exact fills_statement s
  | expression e => exact fills_expression e
  | primary p => exact fills_primary p
  | target v => exact fills_target v
  | call c => exact fills_call c
  | arguments a => exact fills_arguments a
  | field f => exact fills_field f
  | functionBody f => exact fills_functionBody f
  | name m => exact fills_name m

namespace Fits

/-- Where the word of a node is found, the node is printed. -/
theorem node (hn : n.isInline = true) (h : Fits d (Placing.node n) ms (Layout.node d n k) k) :
    Fits d (Placing.node n) [n] (Layout.node d n k) k := by
  intro p u hu v hv
  obtain ⟨q, hq, hrow, c, hc, hstop⟩ := h p u hu v hv
  have hlevels := levels_of_isInline hn
  obtain ⟨-, c', hc', hspan⟩ := fills_of_levels hlevels u hu
  obtain rfl := Option.mem_unique hc hc'
  have hprinted : Printed (n.depthIn d) n p q.line := by
    rw [depthIn_of_isInline hn]
    refine ⟨k, u, v, p, follow_of_isInline hn k, ?_, hv, endsBy_of_isInline hn ?_⟩
    · rwa [nodeAt_of_levels hlevels]
    · rw [← hspan, hstop]
  refine ⟨q, hq, ?_, c, hc, hstop⟩
  exact ⟨p, q.line, beginsBehind_of_isInline hn (Nat.le_refl _), hrow.le, hprinted, Nat.le_refl _⟩

theorem name (m : Name) : Fits d (Placing.name m) [.name m] (.name m.text :: k) k :=
  node (n := .name m) rfl ((piece rfl).of_le (spanned_le _ _))

variable {e : Expression} {p : Primary} {t : Variable} {f : Call} {args : Arguments} {g : Field}
  {body : FunctionBody}

theorem expression (h : Fits d (Placing.expression e) e.children (Layout.expression d e k) k) :
    Fits d (Placing.expression e) [.expression e] (Layout.expression d e k) k :=
  node (n := .expression e) rfl h

theorem primary (h : Fits d (Placing.primary p) p.children (Layout.primary d p k) k) :
    Fits d (Placing.primary p) [.primary p] (Layout.primary d p k) k :=
  node (n := .primary p) rfl h

theorem target (h : Fits d (Placing.target t) t.children (Layout.target d t k) k) :
    Fits d (Placing.target t) [.target t] (Layout.target d t k) k :=
  node (n := .target t) rfl h

theorem call (h : Fits d (Placing.call f) f.children (Layout.call d f k) k) :
    Fits d (Placing.call f) [.call f] (Layout.call d f k) k :=
  node (n := .call f) rfl h

theorem arguments (h : Fits d (Placing.arguments args) args.children (Layout.arguments d args k) k) :
    Fits d (Placing.arguments args) [.arguments args] (Layout.arguments d args k) k :=
  node (n := .arguments args) rfl h

theorem field (h : Fits d (Placing.field g) g.children (Layout.field d g k) k) :
    Fits d (Placing.field g) [.field g] (Layout.field d g k) k :=
  node (n := .field g) rfl h

theorem functionBody (h : Fits d (Placing.functionBody body) (Node.functionBody body).children
      (Layout.functionBody d body k) k) :
    Fits d (Placing.functionBody body) [.functionBody body] (Layout.functionBody d body k) k :=
  node (n := .functionBody body) rfl h

end Fits

/-! ## Symbols with spaces -/

theorem lays_symbol : Lays d (Placing.symbol s) [] (.symbol s :: k) k := Fits.symbol.lays

theorem lays_word : Lays d (Placing.symbol s) [] (Layout.word s k) k :=
  .blank_right rfl lays_symbol

theorem lays_spaced : Lays d (Placing.symbol s) [] (Layout.spaced s k) k := .blank rfl lays_word

theorem lays_comma : Lays d (Placing.symbol .comma) [] (Layout.comma k) k := lays_word

theorem fits_closing : Fits d (Placing.symbol .kwEnd) [] (Layout.closing a k) k := .blank rfl .symbol

theorem lays_unaryOperator (op : UnaryOperator) :
    Lays d (Placing.symbol op.symbol) [] (Layout.unaryOperator op k) k := by
  cases op with
  | not => exact lays_word
  | length => exact lays_symbol
  | negate =>
    rw [Layout.unaryOperator]
    split
    · exact .blank_right rfl lays_symbol
    · exact lays_symbol

/-! ## Names -/

theorem lays_name (n : Name) : Lays d (Placing.name n) [.name n] (.name n.text :: k) k :=
  (Fits.name n).lays

theorem fits_names (ns : List Name) :
    Fits d (Placing.names ns) (ns.map .name) (Layout.names ns k) k := by
  induction ns with
  | nil => exact .zero
  | cons n ns ih =>
    rw [Placing.names, list]
    cases ns with
    | nil =>
      rw [series_nil, mul_one]
      exact .name n
    | cons m ns =>
      rw [series_cons, mul_assoc]
      exact .mul (lays_name n) (.skip lays_comma ih)

theorem lays_names (ns : List Name) :
    Lays d (Placing.names ns) (ns.map .name) (Layout.names ns k) k := (fits_names ns).lays

/-- Names with a comma behind each of them, as they are written. -/
theorem lays_beforeParameter (n : Name) (ns : List Name) :
    Lays d (beforeParameter (n :: ns)) ((n :: ns).map .name)
      (.name n.text :: Layout.moreNames ns (Layout.comma k)) k := by
  induction ns generalizing n with
  | nil =>
    rw [beforeParameter, List.map_singleton, List.prod_singleton]
    exact (lays_name n).mul lays_comma
  | cons m ns ih =>
    rw [beforeParameter, List.map_cons, List.prod_cons, mul_assoc]
    exact (lays_name n).mul (.skip lays_comma (ih m))

theorem moreNames_concat (ns : List Name) (n : Name) :
    Layout.moreNames (ns ++ [n]) k = Layout.moreNames ns (Layout.comma (.name n.text :: k)) := by
  induction ns with
  | nil => rfl
  | cons m ns ih => rw [List.cons_append, Layout.moreNames, Layout.moreNames, ih]

theorem lays_parameters (ns : List Name) (hasVarargs : Bool) :
    Lays d (Placing.parameters ns hasVarargs) (ns.map .name)
      (Layout.parameters ns hasVarargs k) k := by
  cases hasVarargs with
  | true =>
    cases ns with
    | nil =>
      refine .of_le (one_mul (Placing.symbol .ellipsis)).le ?_
      exact lays_symbol
    | cons n ns => exact (lays_beforeParameter n ns).stop lays_symbol
  | false =>
    rcases List.eq_nil_or_concat ns with rfl | ⟨ns, n, rfl⟩
    · exact .nothing
    · have hlast : Placing.parameters (ns ++ [n]) false = beforeParameter ns * Placing.name n := by
        rw [Placing.parameters, List.getLast?_concat, List.dropLast_concat]
        rfl
      rw [List.concat_eq_append, hlast, List.map_append]
      cases ns with
      | nil => exact .of_le (one_mul (Placing.name n)).le (lays_name n)
      | cons m ns =>
        have hwritten : Layout.parameters (m :: ns ++ [n]) false k =
            .name m.text :: Layout.moreNames ns (Layout.comma (.name n.text :: k)) := by
          rw [← moreNames_concat]
          rfl
        rw [hwritten]
        exact (lays_beforeParameter m ns).mul (lays_name n)

theorem lays_morePath (ns : List Name) :
    Lays d (series .dot Placing.name ns) (ns.map .name) (Layout.morePath false ns k) k := by
  induction ns with
  | nil => exact .nothing
  | cons n ns ih =>
    rw [series_cons, mul_assoc]
    exact .skip lays_symbol ((lays_name n).mul ih)

theorem lays_methodPath (ns : List Name) (method : Name) :
    Lays d (series .dot Placing.name ns * (Placing.symbol .colon * Placing.name method))
      (ns.map .name ++ [.name method]) (Layout.morePath true (ns ++ [method]) k) k := by
  induction ns with
  | nil =>
    rw [series_nil, one_mul]
    exact .skip lays_symbol (lays_name method)
  | cons n ns ih =>
    have hdot : (true && (ns ++ [method]).isEmpty) = false := by simp
    rw [series_cons, mul_assoc, mul_assoc, List.cons_append, Layout.morePath, hdot,
      if_neg Bool.false_ne_true]
    exact .skip lays_symbol ((lays_name n).mul ih)

theorem lays_functionName (f : FunctionName) :
    Lays d (Placing.functionName f) (f.path.map .name) (Layout.functionName f k) k := by
  obtain ⟨path, isMethod, span⟩ := f
  cases path with
  | nil => cases isMethod <;> exact Lays.zero.of_le (spanned_le span 0)
  | cons n ns =>
    cases isMethod with
    | false =>
      rw [functionName_function]
      exact .of_le (spanned_le span _) ((lays_name n).mul (lays_morePath ns))
    | true =>
      rcases List.eq_nil_or_concat ns with rfl | ⟨ns, method, rfl⟩
      · refine .of_le (spanned_le span _) (.of_le ?_ .zero)
        exact ((mul_assoc _ _ _).trans (zero_mul _)).le
      · have hmul : Placing.functionName ⟨n :: (ns ++ [method]), true, span⟩ =
            spanned span (Placing.name n * (series .dot Placing.name ns *
              (Placing.symbol .colon * Placing.name method))) := by
          rw [← List.cons_append, functionName_method, path, list]
          simp only [mul_assoc]
        rw [List.concat_eq_append, hmul, List.map_cons, List.map_append]
        exact .of_le (spanned_le span _) ((lays_name n).mul (lays_methodPath ns method))

end Printing

end LuaSource
