-- SUMMARY: Visitors meet the names and the nodes of a source in the order of its tokens.
import LuaSource.Proofs.Excerpt
import LuaSource.Proofs.Grammar.PlacedOrder

/-!
# Visiting a source

The tree of a source stands where its tokens do. So the names that a visitor meets are the tokens
of names, and the nodes that it meets start one behind the other.
-/

namespace LuaSource

/-! ## Marks of a source -/

/-- The marks of tokens that start one behind the other lead from the first of them to the end. -/
theorem advances_marksFrom {p : Position} {ts : List Token} {eof : Token}
    (h : (ts ++ [eof]).Pairwise (·.span.start.offset ≤ ·.span.start.offset)) :
    Placing.Advances (ts.head?.getD eof).span.start.offset (marksFrom p eof.span.start ts)
      eof.span.start.offset := by
  induction ts generalizing p with
  | nil => exact Nat.le_refl _
  | cons t ts ih =>
    obtain ⟨ht, h⟩ := List.pairwise_cons.1 h
    refine ⟨Nat.le_refl _, ?_⟩
    cases ts with
    | nil => exact ⟨ht eof List.mem_cons_self, ih h⟩
    | cons u us => exact ⟨ht u List.mem_cons_self, ih h⟩

theorem Place.Yields.advances {p : Place} {ts : Tokens} {eof : Token}
    (h : p.Yields ts.tokens ts.ending) (heof : ts.ending = .ok eof) :
    Placing.Advances ts.window.current.span.start.offset ts.window.marks
      eof.span.start.offset := by
  obtain ⟨tokens, ending⟩ := ts
  obtain rfl : ending = .ok eof := heof
  exact advances_marksFrom (h.sorted.1.imp Nat.le_of_lt)

/-! ## Visits -/

section

variable {source : String} {options : ParseOptions} {b : Block}

/-- The names of a tree are the tokens of names of its source, and its nodes start one behind the
other. -/
theorem nodes_in_order (h : parse source options = .ok b) :
    (Nodes.block b).filterMap Node.name? =
        (Tokens.ofSource source options.skipShebang).tokens.filterMap Token.name? ∧
      (Nodes.block b).Pairwise (·.start.offset ≤ ·.start.offset) := by
  obtain ⟨eof, heof⟩ := exists_eof_of_parse h
  have hyields : Place.Yields (Place.ofSource source.toList options.skipShebang)
      (Tokens.ofSource source options.skipShebang).tokens
      (Tokens.ofSource source options.skipShebang).ending := Place.yields_ofPlace _
  have hplaced := placed_of_parse h
  obtain ⟨hnames, hrises⟩ := Placing.tells_block
    (Tokens.ofSource source options.skipShebang).window.current.span.start b
  have hmarks : (Tokens.ofSource source options.skipShebang).window.marks.map Mark.toToken =
      (Tokens.ofSource source options.skipShebang).tokens := map_toToken_marksFrom _ _ _
  refine ⟨?_, (hrises _ hplaced _ (hyields.advances heof)).pairwise.1⟩
  rw [← hnames _ hplaced, ← hmarks, List.filterMap_map]
  rfl

/-- A visitor with a hook for names alone sees the names of the source in order, each of them once.
One with hooks for all nodes that walk on sees every node of the tree once, and none before one that
starts ahead of it. -/
theorem visit_in_order (h : parse source options = .ok b) :
    (∀ {σ : Type} (g : Name → σ → σ) (s : σ), ({ name := g } : Visitor σ).visitBlock b s =
      ((Tokens.ofSource source options.skipShebang).tokens.filterMap Token.name?).foldl
        (fun s n => g n s) s) ∧
    (∀ {σ : Type} (f : Node → σ → σ) (s : σ), (Visitor.walking f).visitBlock b s =
      (Nodes.block b).foldl (fun s n => f n s) s) ∧
    (Nodes.block b).Pairwise (·.start.offset ≤ ·.start.offset) := by
  obtain ⟨hnames, horder⟩ := nodes_in_order h
  refine ⟨fun g s => ?_, fun f s => Visitor.visitBlock_walking b s, horder⟩
  rw [Visitor.visitBlock_name, hnames]

theorem visit_in_order_repeat :
    ∃ b, parse "repeat local a until a.b:m(c, d)" = .ok b ∧
      ({ name := fun n seen => seen ++ [n.text] } : Visitor (List String)).visitBlock b [] =
        ["a", "a", "b", "m", "c", "d"] ∧
      (Nodes.block b).Pairwise (·.start.offset ≤ ·.start.offset) := by
  have hok : (parse "repeat local a until a.b:m(c, d)").isOk = true := by decide +kernel
  cases hparse : parse "repeat local a until a.b:m(c, d)" with
  | error e =>
    rw [hparse] at hok
    cases hok
  | ok b =>
    obtain ⟨hnames, -, horder⟩ := visit_in_order hparse
    refine ⟨b, rfl, ?_, horder⟩
    rw [hnames]
    decide +kernel

end

end LuaSource
