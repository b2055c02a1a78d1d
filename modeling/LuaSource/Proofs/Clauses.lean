-- SUMMARY: Where the clauses of the conditionals of a source stand.
import LuaSource.Proofs.Grammar.PlacedClauses
import LuaSource.Proofs.Nesting

/-!
# Clauses of a source

The clauses of a conditional stand one behind the other inside of it, each from its keyword on, and
its last block behind all of them. A clause has its condition inside of it, and its block if that
has statements. An empty block is inside only if the next token comes right behind `then`.
-/

namespace LuaSource

section

variable {source : String} {options : ParseOptions} {b : Block}

theorem marches_of_parse (h : parse source options = .ok b) :
    let w := (Tokens.ofSource source options.skipShebang).window
    ∃ q, Placing.Marches source.toList w.current.span.start w.marks q := by
  obtain ⟨eof, heof⟩ := exists_eof_of_parse h
  have hyields := Place.yields_ofPlace (Place.ofSource source.toList options.skipShebang)
  exact ⟨_, hyields.marches_window heof (Place.reaches_ofSource _ options.skipShebang)⟩

/-- Wherever there is a conditional in the tree of a source, each of its clauses starts with the
`if` or `elseif` that opens it and has its condition inside of it. It ends with its block or, if
that is empty, with its `then`; the empty block stands where the next token starts, which is inside
of the clause just if nothing comes between. The clauses and their blocks follow each other inside
of the conditional, and so does the last block behind them. -/
theorem clauses_stand (h : parse source options = .ok b) {cs : List Clause}
    {otherwise : Option Block} {span : Span}
    (hs : .statement (.conditional cs otherwise span) ∈ Nodes.block b) :
    Clause.StandIn (Tokens.ofSource source options.skipShebang).tokens cs otherwise span := by
  obtain ⟨q, hq⟩ := marches_of_parse h
  obtain ⟨x, u, y, hu, hmarks⟩ := Placing.contains_block _ b _ hs _ (placed_of_parse h)
  rw [hmarks] at hq
  obtain ⟨p, -, hq⟩ := Placing.marches_append.1 hq
  obtain ⟨r, hq, -⟩ := Placing.marches_append.1 hq
  exact Placing.standIn_conditional hu hmarks hq

/-- The clauses of `if a then elseif b then f() else end`. -/
def emptyAndCall : List Clause :=
  [⟨.primary (.var (.name ⟨"a", ⟨⟨1, 4, 3⟩, ⟨1, 5, 4⟩⟩⟩)), ⟨[], .empty ⟨1, 11, 10⟩⟩,
      ⟨⟨1, 1, 0⟩, ⟨1, 10, 9⟩⟩⟩,
    ⟨.primary (.var (.name ⟨"b", ⟨⟨1, 18, 17⟩, ⟨1, 19, 18⟩⟩⟩)),
      ⟨[.call (.function (.var (.name ⟨"f", ⟨⟨1, 25, 24⟩, ⟨1, 26, 25⟩⟩⟩))
        (.list [] ⟨⟨1, 26, 25⟩, ⟨1, 28, 27⟩⟩) ⟨⟨1, 25, 24⟩, ⟨1, 28, 27⟩⟩)],
        ⟨⟨1, 25, 24⟩, ⟨1, 28, 27⟩⟩⟩,
      ⟨⟨1, 11, 10⟩, ⟨1, 28, 27⟩⟩⟩]

def emptyAndCallTree : Block :=
  ⟨[.conditional emptyAndCall (some ⟨[], .empty ⟨1, 34, 33⟩⟩) ⟨⟨1, 1, 0⟩, ⟨1, 37, 36⟩⟩],
    ⟨⟨1, 1, 0⟩, ⟨1, 37, 36⟩⟩⟩

theorem clauses_stand_elseif :
    parse "if a then elseif b then f() else end" = .ok emptyAndCallTree ∧
      .statement (.conditional emptyAndCall (some ⟨[], .empty ⟨1, 34, 33⟩⟩)
        ⟨⟨1, 1, 0⟩, ⟨1, 37, 36⟩⟩) ∈ Nodes.block emptyAndCallTree ∧
      Clause.StandIn (Tokens.ofSource "if a then elseif b then f() else end" true).tokens
        emptyAndCall (some ⟨[], .empty ⟨1, 34, 33⟩⟩) ⟨⟨1, 1, 0⟩, ⟨1, 37, 36⟩⟩ := by
  have hparse : parse "if a then elseif b then f() else end" = .ok emptyAndCallTree := by rfl
  have hmem : .statement (.conditional emptyAndCall (some ⟨[], .empty ⟨1, 34, 33⟩⟩)
      ⟨⟨1, 1, 0⟩, ⟨1, 37, 36⟩⟩) ∈ Nodes.block emptyAndCallTree := .tail _ (.head _)
  exact ⟨hparse, hmem, clauses_stand hparse hmem⟩

/-- The clause of `if x then end`, which stops before the blank that its block stands behind. -/
def emptyClause : Clause :=
  ⟨.primary (.var (.name ⟨"x", ⟨⟨1, 4, 3⟩, ⟨1, 5, 4⟩⟩⟩)), ⟨[], .empty ⟨1, 11, 10⟩⟩,
    ⟨⟨1, 1, 0⟩, ⟨1, 10, 9⟩⟩⟩

/-- An empty block is outside of its clause when a blank comes behind `then`. -/
theorem not_covers_emptyBody :
    ∃ b, parse "if x then end" = .ok b ∧
      .statement (.conditional [emptyClause] none ⟨⟨1, 1, 0⟩, ⟨1, 14, 13⟩⟩) ∈ Nodes.block b ∧
      ¬ emptyClause.span.Covers emptyClause.body.span := by
  refine ⟨⟨[.conditional [emptyClause] none ⟨⟨1, 1, 0⟩, ⟨1, 14, 13⟩⟩],
    ⟨⟨1, 1, 0⟩, ⟨1, 14, 13⟩⟩⟩, by rfl, .tail _ (.head _), ?_⟩
  rintro ⟨-, hstop⟩
  exact absurd hstop.1 (by decide)

end

end LuaSource
