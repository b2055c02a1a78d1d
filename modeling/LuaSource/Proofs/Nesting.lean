-- SUMMARY: In the tree of a source, the spans of nodes nest and follow each other.
import LuaSource.Proofs.Grammar.PlacedEnds
import LuaSource.Proofs.Lexer.Places
import LuaSource.Proofs.Visit

/-!
# Nesting

The tokens of a source stand one behind the other, and its tree stands along them. So the spans of
the nodes that a visitor comes to from a node are inside the span of that node, in their order and
without common parts.
-/

namespace LuaSource

/-! ## Tokens of a source -/

namespace Place

variable {source : List Char} {p q : Place} {t eof : Token} {ts : List Token}

/-- A token starts behind the place where it is looked for. -/
theorem Reaches.leads_start (hp : (ofText source).Reaches p) (h : p.readToken = (.ok t, q)) :
    p.position.Leads source t.span.start := by
  have htrue := hp.trueIn_readToken
  rw [h] at htrue
  obtain ⟨blanks, _, _, -, -, -, hstart, -⟩ := readToken_eq_ok h
  exact ⟨hp.trueIn.2, htrue.1, hstart ▸ p.position.le_after blanks⟩

theorem Yields.leads_head (h : p.Yields ts (.ok eof)) (hp : (ofText source).Reaches p) :
    p.position.Leads source (ts.head?.getD eof).span.start := by
  cases h with
  | ends hread => exact hp.leads_start hread
  | token hread => exact hp.leads_start hread

/-- The tokens that are read from a place of a source on come one behind the other. -/
theorem Yields.marches (h : p.Yields ts (.ok eof)) (hp : (ofText source).Reaches p)
    (before : Position) : Placing.Marches source (ts.head?.getD eof).span.start
      (marksFrom before eof.span.start ts) eof.span.start := by
  induction ts generalizing p before with
  | nil => exact (h.leads_head hp).behind.leads
  | cons t ts ih =>
    cases h with
    | @token _ q _ _ _ hread ht hq =>
      have htrue := hp.trueIn_readToken
      have hreach := hp.trans hp.readToken
      rw [hread] at htrue hreach
      obtain ⟨_, word, -, hword, -, hstop, hposition, -⟩ := readToken_cut hread ht
      have hleads := hq.leads_head hreach
      rw [hposition] at hleads
      refine ⟨htrue.1.leads, ⟨htrue.1, htrue.2, hstop ▸ t.span.start.le_after word⟩, ?_, ?_⟩
      · have hlonger := t.span.start.offset_le_after word
        have hpos := List.length_pos_iff.2 hword
        rw [← hstop] at hlonger
        refine Span.isEmpty_eq_false_iff.2 ?_
        show t.span.start.offset ≠ t.span.stop.offset
        omega
      · have hrest := ih hq hreach t.span.stop
        cases ts with
        | nil => exact ⟨hleads, hrest⟩
        | cons u us => exact ⟨hleads, hrest⟩

theorem Yields.marches_window {ts : Tokens} (h : p.Yields ts.tokens ts.ending)
    (heof : ts.ending = .ok eof) (hp : (ofText source).Reaches p) :
    Placing.Marches source ts.window.current.span.start ts.window.marks eof.span.start := by
  obtain ⟨tokens, ending⟩ := ts
  obtain rfl : ending = .ok eof := heof
  exact h.marches hp _

end Place

/-! ## Nested nodes -/

/-- The span of a node has its place among those of its children. -/
structure Node.Nests (n : Node) : Prop where
  start_le_stop : n.span.start ≤ n.span.stop
  isEmpty_iff : n.span.isEmpty = true ↔ ∃ span, n = .block ⟨[], span⟩
  inside : ∀ c ∈ n.children, n.span.start ≤ c.span.start ∧ c.span.stop ≤ n.span.stop
  disjoint : n.children.Pairwise (·.span.stop ≤ ·.span.start)
  start_eq : n.beginsWithChild = true → ∃ c ∈ n.children.head?, c.span.start = n.span.start
  stop_eq : n.endsWithChild = true → ∃ c ∈ n.children.getLast?, c.span.stop = n.span.stop

theorem Placing.Placed.nests {source : List Char} {n : Node} (h : Placed source n) : n.Nests where
  start_le_stop := h.row.leads.le
  isEmpty_iff := h.isEmpty_iff
  inside := h.row.inside.1
  disjoint := h.row.inside.2
  start_eq := h.start_eq
  stop_eq := h.stop_eq

section

variable {source : String} {options : ParseOptions} {b : Block}

/-- Every node of the tree of a source is placed in the source. -/
theorem nodes_placed (h : parse source options = .ok b) :
    ∀ n ∈ Nodes.block b, Placing.Placed source.toList n := by
  obtain ⟨eof, heof⟩ := exists_eof_of_parse h
  have hyields := Place.yields_ofPlace (Place.ofSource source.toList options.skipShebang)
  have hmarches := hyields.marches_window heof (Place.reaches_ofSource _ options.skipShebang)
  have hroot : Placing.Placed source.toList (.block b) := ⟨_, _, _, placed_of_parse h, hmarches⟩
  exact Nodes.of_induct hroot fun m hm => hm.row.placed

/-- Wherever a visitor comes to in the tree of a source, the spans of the nodes that it goes on to
are inside the span of the node that it is at, in their order and apart from each other. -/
theorem nodes_nest (h : parse source options = .ok b) :
    ∀ n ∈ Nodes.block b, n.Nests ∧ ∀ {σ : Type} (v : Visitor σ) (s : σ),
      v.visit n s = v.hook n (Visitor.along v.visit n.children) s :=
  fun n hn => ⟨(nodes_placed h n hn).nests, fun v s => v.visit_eq n s⟩

theorem nodes_nest_call :
    ∃ b, parse "do local x = f(-1, {}) end" = .ok b ∧ (∀ n ∈ Nodes.block b, n.Nests) ∧
      (Nodes.block b).length = 15 := by
  have hok : (parse "do local x = f(-1, {}) end").isOk = true := by decide +kernel
  have hlength : ((parse "do local x = f(-1, {}) end").toOption.map
      fun b => (Nodes.block b).length) = some 15 := by decide +kernel
  cases hparse : parse "do local x = f(-1, {}) end" with
  | error e =>
    rw [hparse] at hok
    cases hok
  | ok b =>
    rw [hparse] at hlength
    exact ⟨b, rfl, fun n hn => (nodes_nest hparse n hn).1, Option.some.inj hlength⟩

end

end LuaSource
