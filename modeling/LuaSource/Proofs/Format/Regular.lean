-- SUMMARY: Where the statements of a tree stand that is read back from its text.
import LuaSource.Proofs.Excerpt
import LuaSource.Proofs.Format.Laid
import LuaSource.Proofs.Format.RoundTrip

/-!
# Regular layout

In the tree that is read from a formatted text, statements are indented by the blocks around them,
each one begins on the line behind the statement before it, and no two of them share the line that
they begin on.
-/

namespace LuaSource

/-! ## Nodes inside blocks -/

/-- A node that is come to from `root`, and the number of blocks that it stands inside. -/
inductive Node.Within (root : Node) : Nat → Node → Prop
  | root : Within root 0 root
  | child {depth : Nat} {n m : Node} (h : Within root depth n) (hm : m ∈ n.children) :
      Within root (depth + n.levels) m

theorem Node.exists_within {root n : Node} (h : n ∈ Nodes.of root) :
    ∃ depth, Node.Within root depth n :=
  Nodes.of_induct (P := fun n => ∃ depth, Node.Within root depth n) ⟨0, .root⟩
    (fun _ ⟨_, h⟩ _ hm => ⟨_, h.child hm⟩) n h

/-- The lines on which the statements among some nodes begin. -/
def Nodes.statementLines (ns : List Node) : List Nat :=
  ns.filterMap fun
    | .statement s => some s.span.start.line
    | _ => none

/-- The statements of a block that stands inside `depth` blocks itself: the column of each of them,
and the lines on which they follow each other. -/
structure Block.Regular (depth : Nat) (b : Block) : Prop where
  column : ∀ i s, b.statements[i]? = some s →
    s.span.start.column = 2 * depth + 1 + if i ≠ 0 ∧ s.startsWithParen = true then 1 else 0
  line : b.statements.IsChain fun s s' => s'.span.start.line = s.span.stop.line + 1

namespace Printing

open Placing

variable {d a line : Nat} {p q : Position} {n : Node}

/-! ## Children -/

/-- Along the layout of a node that is no block its children are printed. -/
theorem fits_node (hn : n.levels = 0) (k : List Piece) :
    Fits d (Placing.node n) n.children (Layout.node d n k) k := by
  cases n with
  | block b => cases hn
  | statement s => exact fits_statement s
  | expression e => exact fits_expression e
  | primary p => exact fits_primary p
  | target v => exact fits_target v
  | call c => exact fits_call c
  | arguments a => exact fits_arguments a
  | field f => exact fits_field f
  | functionBody f => exact fits_functionBody f
  | name m => exact (Fits.piece rfl).of_le (spanned_le _ _)

theorem Printed.row (h : Printed d n p line) (hn : n.levels = 0) :
    Row d p.line n.children line := by
  obtain ⟨k, u, v, start, -, hu, htokens, hends⟩ := h
  rw [nodeAt_of_levels hn] at hu
  obtain ⟨q, -, hrow, c, hc, hstop⟩ := fits_node hn k p u hu v htokens
  obtain ⟨-, c', hc', hspan⟩ := fills_of_levels hn u hu
  obtain rfl := Option.mem_unique hc hc'
  refine hrow.mono_right ?_
  rw [← hstop, hspan]
  cases n with
  | block b => cases hn
  | _ => exact hends

theorem Printed.stack {b : Block} (h : Printed d (.block b) p line) :
    ∃ q, Stack d true p b.statements q := by
  obtain ⟨k, u, v, start, hk, hu, htokens, -⟩ := h
  obtain ⟨q, -, hstack⟩ := stacks_block b hk p u hu v htokens
  exact ⟨q, hstack⟩

/-- A printed statement begins where its layout does. -/
theorem Printed.start_eq {s : Statement} (h : Printed d (.statement s) p line) :
    s.span.start = p := by
  obtain ⟨k, u, v, start, -, hu, htokens, -⟩ := h
  obtain ⟨⟨c, hc, hstart⟩, -⟩ := fills_statement s u hu
  obtain ⟨c', hc', hp⟩ := (opens_statement hu).start_eq htokens
  rw [List.head?_append_of_ne_nil _ (head_ne_semicolon hu).1] at hc'
  obtain rfl := Option.mem_unique hc hc'
  exact hstart.symm.trans hp

theorem Stack.row {first : Bool} {ss : List Statement} (h : Stack d first p ss q)
    (ha : a < p.line) (hle : a ≤ line) (hends : ∀ s ∈ ss, s.span.stop.line ≤ line) :
    Row d a (ss.map .statement) line := by
  induction ss generalizing a p first with
  | nil => exact hle
  | cons s ss ih =>
    obtain ⟨hstart, hspan, hprinted, h⟩ := h
    obtain ⟨hs, hss⟩ := List.forall_mem_cons.1 hends
    have hbegins : a < s.span.start.line := by rwa [hstart, line_lineStart]
    exact ⟨s.span.start, s.span.stop.line, hbegins, hspan, hprinted,
      ih h (Nat.lt_succ_self _) hs hss⟩

/-- The children of a printed node are printed in a row behind the line `a`. -/
theorem Printed.children (h : Printed d n p line) (hbegins : n.BeginsBehind a p)
    (hline : p.line ≤ line) : ∃ b, a ≤ b ∧ (n.levels = 0 → b = p.line) ∧
      Row d b n.children line := by
  have ha := le_of_beginsBehind hbegins
  cases n with
  | block b =>
    obtain ⟨q, hstack⟩ := h.stack
    obtain ⟨-, -, -, -, -, -, -, hends⟩ := h
    exact ⟨a, Nat.le_refl a, nofun, hstack.row hbegins.1 (ha.trans hline) hends⟩
  | _ => exact ⟨p.line, ha, fun _ => rfl, h.row rfl⟩

/-! ## All nodes -/

/-- Every node of a printed block is printed, with the indentation that the blocks around it
give. -/
theorem printed_within {root : Node} {depth : Nat} (hroot : Printed 0 root p line)
    (hlevels : root.levels = 1) (hbegins : root.BeginsBehind a p) (hline : p.line ≤ line)
    (h : Node.Within root depth n) :
    ∃ d a p line, n.BeginsBehind a p ∧ p.line ≤ line ∧ Printed d n p line ∧
      depth + n.levels = d + 1 := by
  induction h with
  | root => exact ⟨0, a, p, line, hbegins, hline, hroot, by rw [hlevels]⟩
  | @child depth n m _ hm ih =>
    obtain ⟨d, a, p, line, hbegins, hline, hprinted, hdepth⟩ := ih
    obtain ⟨b, -, -, hrow⟩ := hprinted.children hbegins hline
    obtain ⟨p', line', hbegins', hline', hprinted'⟩ := hrow.printed hm
    refine ⟨m.depthIn d, b, p', line', hbegins', hline', hprinted', ?_⟩
    rw [hdepth]
    cases m <;> rfl

/-! ## Lines of statements -/

theorem statementLines_append (ns ms : List Node) :
    Nodes.statementLines (ns ++ ms) = Nodes.statementLines ns ++ Nodes.statementLines ms :=
  List.filterMap_append

/-- Among nodes in a row, the statements of the later ones begin on later lines. -/
theorem Row.statementLines {ns : List Node} {b : Nat} (h : Row d a ns b)
    (hnodes : ∀ n ∈ ns, ∀ {d p a line}, Printed d n p line → n.BeginsBehind a p →
      p.line ≤ line → (Nodes.statementLines (Nodes.of n)).Pairwise (· < ·) ∧
        ∀ l ∈ Nodes.statementLines (Nodes.of n), a < l ∧ l ≤ line) :
    (Nodes.statementLines (ns.flatMap Nodes.of)).Pairwise (· < ·) ∧
      ∀ l ∈ Nodes.statementLines (ns.flatMap Nodes.of), a < l ∧ l ≤ b := by
  induction ns generalizing a with
  | nil => exact ⟨.nil, nofun⟩
  | cons n ns ih =>
    obtain ⟨hn, hns⟩ := List.forall_mem_cons.1 hnodes
    obtain ⟨p, line, hbegins, hline, hprinted, hrow⟩ := h
    obtain ⟨hpairwise, hlines⟩ := hn hprinted hbegins hline
    obtain ⟨hpairwise', hlines'⟩ := ih hrow hns
    have ha := (le_of_beginsBehind hbegins).trans hline
    have hb := hrow.le
    rw [List.flatMap_cons, statementLines_append]
    refine ⟨List.pairwise_append.2 ⟨hpairwise, hpairwise', fun l hl l' hl' => ?_⟩,
      List.forall_mem_append.2 ⟨fun l hl => ?_, fun l hl => ?_⟩⟩
    · exact Nat.lt_of_le_of_lt (hlines l hl).2 (hlines' l' hl').1
    · exact ⟨(hlines l hl).1, (hlines l hl).2.trans hb⟩
    · exact ⟨Nat.lt_of_le_of_lt ha (hlines' l hl).1, (hlines' l hl).2⟩

/-- The statements that are come to from a printed node begin on lines of their own. -/
theorem Printed.statementLines (h : Printed d n p line) (hbegins : n.BeginsBehind a p)
    (hline : p.line ≤ line) :
    (Nodes.statementLines (Nodes.of n)).Pairwise (· < ·) ∧
      ∀ l ∈ Nodes.statementLines (Nodes.of n), a < l ∧ l ≤ line := by
  induction hlength : (Nodes.of n).length using Nat.strongRecOn generalizing n d p a line with
  | ind size ih =>
    subst hlength
    obtain ⟨b, hab, hb, hrow⟩ := h.children hbegins hline
    obtain ⟨hpairwise, hlines⟩ := hrow.statementLines fun m hm _ _ _ _ hprinted hbegins hline =>
      ih _ (Nodes.length_of_lt hm) hprinted hbegins hline rfl
    rw [Nodes.of_eq]
    have hbehind : ∀ l ∈ Nodes.statementLines (n.children.flatMap Nodes.of), a < l ∧ l ≤ line :=
      fun l hl => ⟨Nat.lt_of_le_of_lt hab (hlines l hl).1, (hlines l hl).2⟩
    cases n with
    | statement s =>
      obtain rfl := hb rfl
      have hs : s.span.start.line = p.line := congrArg (·.line) h.start_eq
      refine ⟨List.pairwise_cons.2 ⟨fun l hl => hs ▸ (hlines l hl).1, hpairwise⟩,
        List.forall_mem_cons.2 ⟨?_, hbehind⟩⟩
      rw [hs]
      exact ⟨hbegins, hline⟩
    | _ => exact ⟨hpairwise, hbehind⟩

/-! ## Statements of a block -/

theorem Stack.column {first : Bool} {ss : List Statement} (h : Stack d first p ss q)
    (hp : p.column = 1) (i : Nat) {s : Statement} (hs : ss[i]? = some s) :
    s.span.start.column = 2 * d + 1 +
      if (first = true → i ≠ 0) ∧ s.startsWithParen = true then 1 else 0 := by
  induction ss generalizing first p i with
  | nil => cases hs
  | cons t ts ih =>
    obtain ⟨hstart, -, -, h⟩ := h
    cases i with
    | zero =>
      cases hs
      rw [hstart, column_lineStart, hp]
      cases first <;> cases s.startsWithParen <;> simp <;> omega
    | succ i =>
      rw [ih h rfl i hs]
      simp

theorem Stack.isChain {first : Bool} {ss : List Statement} (h : Stack d first p ss q) :
    ss.IsChain fun s s' => s'.span.start.line = s.span.stop.line + 1 := by
  induction ss generalizing first p with
  | nil => exact .nil
  | cons s ss ih =>
    obtain ⟨-, -, -, h⟩ := h
    cases ss with
    | nil => exact .singleton s
    | cons s' ss =>
      refine .cons_cons ?_ (ih h)
      rw [h.1, line_lineStart]
      rfl

theorem Printed.regular {b : Block} (h : Printed d (.block b) p line) (hp : p.column = 1) :
    b.Regular d := by
  obtain ⟨q, hstack⟩ := h.stack
  refine ⟨fun i s hs => ?_, hstack.isChain⟩
  rw [hstack.column hp i hs]
  simp

end Printing

/-! ## Formatted trees -/

/-- A tree that is read from what its layout writes is printed at the start of the text. -/
theorem printed_of_parse {source : String} {options : ParseOptions} {b : Block}
    (h : parse source options = .ok b)
    (htokens : (Tokens.ofSource source options.skipShebang).tokens =
      Piece.tokens Position.start (Layout.block 0 b [])) :
    ∃ line, Position.start.line ≤ line ∧ Printing.Printed 0 (.block b) Position.start line := by
  have hnil : Printing.NoSemicolon [] := fun _ _ ht => nomatch ht
  have hmarks : Piece.tokens Position.start (Layout.block 0 b []) =
      ((Tokens.ofSource source options.skipShebang).window.marks ++ []).map Mark.toToken := by
    rw [← htokens, List.append_nil]
    exact (map_toToken_marksFrom _ _ _).symm
  obtain ⟨q, -, hstack⟩ := Printing.stacks_block b hnil _ _ (placed_of_parse h) [] hmarks
  obtain ⟨hline, hends⟩ := hstack.le
  exact ⟨q.line, hline, [], _, [], _, hnil, placed_of_parse h, hmarks, hends⟩

/-- What is read from the text of a tree without NaN is laid out regularly. -/
theorem format_regular {source : String} {options options' : ParseOptions} {t : Block}
    (h : parse source options = .ok t) (hnumbers : Everywhere.block numbersOnly t)
    (hdepth : options'.maxDepth = options.maxDepth) :
    ∃ u, parse (format t) options' = .ok u ∧
      (∀ k b, (Node.block u).Within k (.block b) → b.Regular k) ∧
      (Nodes.statementLines (Nodes.block u)).Pairwise (· < ·) := by
  obtain ⟨u, hparse, hshape, -⟩ := parse_format_of_parse h hnumbers hdepth
  obtain ⟨-, hsound, -⟩ := parse_sound h
  obtain ⟨eof, htokens⟩ := tokens_format (wellFormed_of_sound hsound hnumbers) options'.skipShebang
  have hlayout : Layout.block 0 t [] = Layout.block 0 u [] := by
    rw [← Layout.block_shape t, ← hshape, Layout.block_shape]
  obtain ⟨line, hline, hprinted⟩ := printed_of_parse hparse (by rw [htokens, hlayout])
  have hbegins : (Node.block u).BeginsBehind 0 Position.start := ⟨Nat.zero_lt_one, rfl⟩
  refine ⟨u, hparse, fun k b hb => ?_, (hprinted.statementLines hbegins hline).1⟩
  obtain ⟨d, a, p, line', hbegins', -, hprinted', hk⟩ :=
    Printing.printed_within hprinted rfl hbegins hline hb
  cases hk
  exact hprinted'.regular hbegins'.2

/-- The tree of the source `do f();(f)()end`. -/
def twoCalls : Block :=
  ⟨[.doBlock
    ⟨[.call (.function (.var (.name ⟨"f", ⟨⟨1, 4, 3⟩, ⟨1, 5, 4⟩⟩⟩))
        (.list [] ⟨⟨1, 5, 4⟩, ⟨1, 7, 6⟩⟩) ⟨⟨1, 4, 3⟩, ⟨1, 7, 6⟩⟩),
      .call (.function
        (.parenthesized (.primary (.var (.name ⟨"f", ⟨⟨1, 9, 8⟩, ⟨1, 10, 9⟩⟩⟩)))
          ⟨⟨1, 8, 7⟩, ⟨1, 11, 10⟩⟩)
        (.list [] ⟨⟨1, 11, 10⟩, ⟨1, 13, 12⟩⟩) ⟨⟨1, 8, 7⟩, ⟨1, 13, 12⟩⟩)],
      ⟨⟨1, 4, 3⟩, ⟨1, 13, 12⟩⟩⟩ ⟨⟨1, 1, 0⟩, ⟨1, 16, 15⟩⟩],
    ⟨⟨1, 1, 0⟩, ⟨1, 16, 15⟩⟩⟩

theorem format_regular_twoCalls :
    parse "do f();(f)()end" = .ok twoCalls ∧ Everywhere.block numbersOnly twoCalls ∧
      format twoCalls = "do\n  f()\n  ;(f)()\nend\n" ∧
      ∃ u, parse (format twoCalls) = .ok u ∧
        (∀ k b, (Node.block u).Within k (.block b) → b.Regular k) ∧
        (Nodes.statementLines (Nodes.block u)).Pairwise (· < ·) := by
  have hparse : parse "do f();(f)()end" = .ok twoCalls := by rfl
  have hnumbers : Everywhere.block numbersOnly twoCalls :=
    ⟨trivial, ⟨trivial, trivial,
      ⟨trivial, trivial, trivial⟩, ⟨trivial, ⟨trivial, trivial⟩, trivial⟩, trivial⟩, trivial⟩
  have hformat : format twoCalls = "do\n  f()\n  ;(f)()\nend\n" := by
    decide +kernel
  exact ⟨hparse, hnumbers, hformat, format_regular hparse hnumbers rfl⟩

end LuaSource
