-- SUMMARY: Sources with the same lexemes have the same tree up to spans, however they are laid out.
import LuaSource.Proofs.Accept
import LuaSource.Proofs.Grammar.InStepGrammar
import LuaSource.Proofs.Grammar.Relayout

/-!
# Layout

Blanks, comments and line breaks between the lexemes of a source play no part in what its tree is.
All that they can do is to keep a source from being parsed, by a line break before the arguments
of a call.
-/

namespace LuaSource

variable {source source' : String} {options options' : ParseOptions}

/-- The windows on two sources with the same lexemes. -/
theorem exists_relayout {skip skip' : Bool} {ls : List Lexeme}
    (h : lexemes source skip = some ls) (h' : lexemes source' skip' = some ls) :
    ∃ L : Relayout, L.left = (Tokens.ofSource source skip).window ∧
      L.right = (Tokens.ofSource source' skip').window := by
  obtain ⟨eof, hending, rfl⟩ := lexemes_eq_some_iff.1 h
  obtain ⟨eof', hending', heq⟩ := lexemes_eq_some_iff.1 h'
  obtain ⟨hahead, heof⟩ := List.append_inj' heq rfl
  exact ⟨⟨_, _, hahead, eof, eof', hending, hending', List.singleton_inj.1 heof⟩, rfl, rfl⟩

/-- A fault about arguments on a new line is found at two tokens of the source. -/
theorem exists_tokens_of_splits {skip : Bool} {e : Located ParseFault}
    (h : (Tokens.ofSource source skip).window.Splits e) :
    ∃ i a b, (Tokens.ofSource source skip).tokens[i]? = some a ∧
      (Tokens.ofSource source skip).tokens[i + 1]? = some b ∧ b.symbol = .leftParen ∧
      a.span.stop.line < b.span.start.line ∧ e = ⟨.ambiguousCall b.text, b.span⟩ := by
  obtain ⟨i, hs, hline, rfl⟩ := h
  have hproper := Tokens.proper_ofSource source skip
  have hyields : Place.Yields _ (Tokens.ofSource source skip).tokens _ := Place.yields_ofPlace _
  have hget : ∀ k, (Tokens.ofSource source skip).window.token k =
      (Tokens.ofSource source skip).tokens[k]?.getD (Tokens.ofSource source skip).window.endToken :=
    fun _ => rfl
  rw [hget] at hs
  cases hb : (Tokens.ofSource source skip).tokens[i + 1]? with
  | none =>
    rw [hb, Option.getD_none, hproper.symbol_endToken] at hs
    cases hs
  | some b =>
    obtain ⟨hlt, hget'⟩ := List.getElem?_eq_some_iff.1 hb
    have ha := List.getElem?_eq_getElem (Nat.lt_of_succ_lt hlt)
    rw [hb, Option.getD_some] at hs
    rw [hget, hget, ha, hb, Option.getD_some, Option.getD_some] at hline
    refine ⟨i, _, b, ha, hb, hs, Nat.lt_of_le_of_ne ?_ hline, by rw [hget, hb, Option.getD_some]⟩
    rw [← hget']
    exact List.pairwise_iff_getElem.1 hyields.lines.1 i (i + 1) _ hlt (Nat.lt_succ_self i)

/-- Where one of two sources with the same lexemes is parsed, so is the other one, to a tree of the
same shape, or there are arguments on a new line. -/
theorem parse_of_lexemes_eq {t : Block}
    (hlexemes : lexemes source options.skipShebang = lexemes source' options'.skipShebang)
    (hdepth : options.maxDepth = options'.maxDepth) (ht : parse source options = .ok t) :
    (∃ t', parse source' options' = .ok t' ∧ Shape.block t = Shape.block t') ∨
      ∃ e, parse source' options' = .error ⟨e, options'.chunkName⟩ ∧
        (Tokens.ofSource source' options'.skipShebang).window.Splits e := by
  obtain ⟨eof, hending⟩ := exists_eof_of_parse ht
  have hls := lexemes_eq_some_iff.2 ⟨eof, hending, rfl⟩
  have hls' := hlexemes.symm.trans hls
  obtain ⟨L, hleft, hright⟩ := exists_relayout hls hls'
  obtain ⟨eof', hending', -⟩ := lexemes_eq_some_iff.1 hls'
  obtain ⟨w, hchunk⟩ := Tokens.exists_chunk (parse_eq_ok_iff.1 ht)
  have houtcome : L.parallel.Outcome 0 Shape.block
      (Grammar.chunk (Level.ofDepth options.maxDepth) L.left)
      (Grammar.chunk (Level.ofDepth options.maxDepth) L.right) :=
    L.parallel.chunk_inStep options.maxDepth _ _ ⟨0, le_rfl, rfl, rfl⟩
  have hparse : (Tokens.ofSource source' options'.skipShebang).parse options'.maxDepth =
      (Grammar.chunk (Level.ofDepth options.maxDepth) L.right).map Prod.fst := by
    have hreadable : (Tokens.ofSource source' options'.skipShebang).window.errorWithin? 2 = none :=
      Window.errorWithin?_eq_none_iff.2 fun e he => by
        have hok : Except.ok eof' = Except.error e := hending'.symm.trans he
        cases hok
    rw [Tokens.parse_eq, hreadable, hdepth, hright]
  rw [hleft, hchunk] at houtcome
  rw [← hright]
  cases hrun : Grammar.chunk (Level.ofDepth options.maxDepth) L.right with
  | ok r =>
    rw [hrun] at houtcome hparse
    cases houtcome with
    | ok hshape _ => exact .inl ⟨_, parse_eq_ok_iff.2 hparse, hshape⟩
  | error e =>
    rw [hrun] at houtcome hparse
    cases houtcome with
    | right hsplits => exact .inr ⟨e, parse_eq_error_iff.2 ⟨hparse, rfl⟩, hsplits⟩

/-- Layout plays no part in what a source means. The trees of two sources with the same lexemes
have the same shape. If just one of the two is parsed, then the other one has an opening
parenthesis on a later line than the end of the token before it, and its fault is about this
parenthesis. -/
theorem parse_relayout
    (hlexemes : lexemes source options.skipShebang = lexemes source' options'.skipShebang)
    (hdepth : options.maxDepth = options'.maxDepth) :
    (∀ t t', parse source options = .ok t → parse source' options' = .ok t' →
      Shape.block t = Shape.block t') ∧
    ∀ t, parse source options = .ok t → (∃ t', parse source' options' = .ok t') ∨
      ∃ i a b, (Tokens.ofSource source' options'.skipShebang).tokens[i]? = some a ∧
        (Tokens.ofSource source' options'.skipShebang).tokens[i + 1]? = some b ∧
        b.symbol = .leftParen ∧ a.span.stop.line < b.span.start.line ∧
        parse source' options' =
          .error ⟨⟨.ambiguousCall b.text, b.span⟩, options'.chunkName⟩ := by
  refine ⟨fun t t' ht ht' => ?_, fun t ht => ?_⟩
  · obtain ⟨u, hu, hshape⟩ | ⟨e, he, -⟩ := parse_of_lexemes_eq hlexemes hdepth ht
    · rw [ht'] at hu
      cases hu
      exact hshape
    · rw [ht'] at he
      cases he
  · obtain ⟨t', ht', -⟩ | ⟨e, he, hsplits⟩ := parse_of_lexemes_eq hlexemes hdepth ht
    · exact .inl ⟨t', ht'⟩
    · obtain ⟨i, a, b, ha, hb, hs, hline, rfl⟩ := exists_tokens_of_splits hsplits
      exact .inr ⟨i, a, b, ha, hb, hs, hline, he⟩

/-- A line break before the parenthesis in `f()` is the one that is not allowed. -/
theorem parse_relayout_call :
    lexemes "f()" false = lexemes "f\n(--\n)" false ∧
      ∃ i a b, (Tokens.ofSource "f\n(--\n)" false).tokens[i]? = some a ∧
        (Tokens.ofSource "f\n(--\n)" false).tokens[i + 1]? = some b ∧
        b.symbol = .leftParen ∧ a.span.stop.line < b.span.start.line ∧
        parse "f\n(--\n)" = .error ⟨⟨.ambiguousCall b.text, b.span⟩, "<unknown>"⟩ := by
  have hlexemes : lexemes "f()" false = lexemes "f\n(--\n)" false := by decide +kernel
  have hcall : parse "f()" = .ok ⟨[.call (.function (.var (.name ⟨"f", ⟨⟨1, 1, 0⟩, ⟨1, 2, 1⟩⟩⟩))
      (.list [] ⟨⟨1, 2, 1⟩, ⟨1, 4, 3⟩⟩) ⟨⟨1, 1, 0⟩, ⟨1, 4, 3⟩⟩)], ⟨⟨1, 1, 0⟩, ⟨1, 4, 3⟩⟩⟩ := by rfl
  have hsplit : parse "f\n(--\n)" =
      .error ⟨⟨.ambiguousCall "(", ⟨⟨2, 1, 2⟩, ⟨2, 2, 3⟩⟩⟩, "<unknown>"⟩ := by rfl
  refine ⟨hlexemes, ?_⟩
  obtain ⟨t', ht'⟩ | h := (@parse_relayout _ _ _ {} hlexemes rfl).2 _ hcall
  · rw [hsplit] at ht'
    cases ht'
  · exact h

end LuaSource
