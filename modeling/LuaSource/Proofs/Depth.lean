-- SUMMARY: The greatest depth of a parse limits nesting, and does nothing else.
import LuaSource.Proofs.Accept
import LuaSource.Proofs.Grammar.Depth

/-!
# The limit on nesting

A parse with fewer levels does the same as one with more of them, or it has too few. It has
enough if and only if the tree that is there to be read needs no more.
-/

namespace LuaSource

theorem Tokens.parse_below (ts : Tokens) {depth depth' : Nat} (h : depth ≤ depth') :
    ts.parse depth = ts.parse depth' ∨
      ∃ e, ts.parse depth = .error e ∧ e.cause.isTooDeep = true := by
  rw [parse_eq, parse_eq]
  cases ts.window.errorWithin? 2 with
  | some e => exact .inl rfl
  | none =>
    rcases Below.chunk_below h ts.window with hsame | ⟨e, herror, hdeep⟩
    · rw [hsame]
      exact .inl rfl
    · rw [herror]
      exact .inr ⟨e, rfl, hdeep⟩

/-- A parse with fewer levels gives the same result, unless it has too few. -/
theorem parse_below (source : String) (options : ParseOptions) {depth depth' : Nat}
    (h : depth ≤ depth') :
    parse source { options with maxDepth := depth } =
        parse source { options with maxDepth := depth' } ∨
      ∃ e, parse source { options with maxDepth := depth } = .error e ∧
        e.cause.isTooDeep = true := by
  rw [parse, parse]
  rcases (Tokens.ofSource source options.skipShebang).parse_below h with hsame | ⟨e, herror, hdeep⟩
  · exact .inl (congrArg _ hsame)
  · refine .inr ⟨⟨e, options.chunkName⟩, ?_, hdeep⟩
    show Except.mapError _ ((Tokens.ofSource source options.skipShebang).parse depth) = _
    rw [herror]
    rfl

/-- The limit on nesting is exact: what is parsed within it is parsed in the same way with a
greater one, and a tree is parsed within it if and only if it needs no more levels. -/
theorem parse_within_depth (source : String) (options : ParseOptions) {depth depth' : Nat}
    (h : depth ≤ depth') :
    ((∀ e, parse source { options with maxDepth := depth } = .error e →
        e.cause.isTooDeep = false) →
      parse source { options with maxDepth := depth' } =
        parse source { options with maxDepth := depth }) ∧
    ∀ t, parse source { options with maxDepth := depth' } = .ok t →
      (Need.block t ≤ depth → parse source { options with maxDepth := depth } = .ok t) ∧
      (depth < Need.block t → ∃ e, parse source { options with maxDepth := depth } = .error e ∧
        e.cause.isTooDeep = true) := by
  have hbelow := parse_below source options h
  refine ⟨fun hnot => ?_, fun t ht => ⟨fun hneed => ?_, fun hneed => ?_⟩⟩
  · rcases hbelow with hsame | ⟨e, herror, hdeep⟩
    · exact hsame.symm
    · rw [hnot e herror] at hdeep
      cases hdeep
  · rcases hbelow with hsame | ⟨e, herror, hdeep⟩
    · exact hsame.trans ht
    · -- The tree is spelled by the source, so that it would be parsed.
      obtain ⟨hletters, hsound, -⟩ := parse_sound ht
      obtain ⟨eof, hready⟩ := exists_eof_of_parse ht
      obtain ⟨t', ht', -⟩ := @parse_complete source { options with maxDepth := depth } t eof
        hready hletters (Everywhere.mono_block sound_implies_grammatical t hsound) hneed
      rw [herror] at ht'
      cases ht'
  · rcases hbelow with hsame | htooDeep
    · obtain ⟨-, -, hle⟩ := parse_sound (hsame.trans ht)
      exact absurd hle (Nat.not_le.2 hneed)
    · exact htooDeep

/-- The tree of the source `do end`. -/
def emptyDo : Block :=
  ⟨[.doBlock ⟨[], Span.empty ⟨1, 4, 3⟩⟩ ⟨⟨1, 1, 0⟩, ⟨1, 7, 6⟩⟩], ⟨⟨1, 1, 0⟩, ⟨1, 7, 6⟩⟩⟩

theorem parse_within_depth_block :
    2 ≤ 200 ∧ 1 ≤ 200 ∧ Need.block emptyDo = 2 ∧
      parse "do end" { maxDepth := 2 } = .ok emptyDo ∧
      ∃ e, parse "do end" { maxDepth := 1 } = .error e ∧ e.cause.isTooDeep = true := by
  have htwo : 2 ≤ 200 := by decide
  have hone : 1 ≤ 200 := by decide
  have hneed : Need.block emptyDo = 2 := by decide
  have hparse : parse "do end" { maxDepth := 200 } = .ok emptyDo := by rfl
  exact ⟨htwo, hone, hneed, ((parse_within_depth "do end" {} htwo).2 _ hparse).1 hneed.le,
    ((parse_within_depth "do end" {} hone).2 _ hparse).2 (hneed ▸ Nat.lt_succ_self 1)⟩

end LuaSource
