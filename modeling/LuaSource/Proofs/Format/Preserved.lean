-- SUMMARY: Formatting keeps the lexemes of a source, in their order.
import LuaSource.Proofs.Format.Canonical
import LuaSource.Proofs.Format.RoundTrip

/-!
# Formatting keeps lexemes

The text of a tree that was parsed has the lexemes of its source. It may have other separators,
and may write numbers in another way, but has no lexeme more or less.
-/

namespace LuaSource

theorem map_toLexeme_lettersFrom (p : Position) (ts : List Token) :
    (lettersFrom p ts).map Letter.toLexeme = ts.map Token.toLexeme := by
  induction ts generalizing p with
  | nil => rfl
  | cons t ts ih => rw [lettersFrom, List.map_cons, List.map_cons, ih, Token.letter_toLexeme]

theorem exact_lettersFrom (p : Position) {ts : List Token}
    (h : ∀ t ∈ ts, t.value.isSome = t.symbol.carriesText) : Exact (lettersFrom p ts) := by
  induction ts generalizing p with
  | nil => exact List.forall_mem_nil _
  | cons t ts ih =>
    obtain ⟨ht, hts⟩ := List.forall_mem_cons.1 h
    exact List.forall_mem_cons.2 ⟨ht, ih _ hts⟩

/-- Two texts that spell the same tree have the same canonical lexemes. -/
theorem canonical_eq_of_spells {source source' : String} {skip skip' : Bool} {eof eof' : Token}
    {t : Block} (hending : (Tokens.ofSource source skip).ending = .ok eof)
    (hending' : (Tokens.ofSource source' skip').ending = .ok eof')
    (hletters : (Tokens.ofSource source skip).letters ∈ Spelling.block t)
    (hletters' : (Tokens.ofSource source' skip').letters ∈ Spelling.block t) :
    ∃ ls ls', lexemes source skip = some ls ∧ lexemes source' skip' = some ls' ∧
      canonical ls = canonical ls' := by
  obtain ⟨x, hx⟩ := Canonical.block t (o := []) (by rintro ⟨⟩)
  have hcanonical : ∀ {source : String} {skip : Bool} {eof : Token},
      (Tokens.ofSource source skip).ending = .ok eof →
      (Tokens.ofSource source skip).letters ∈ Spelling.block t →
      canonical ((Tokens.ofSource source skip).tokens.map Token.toLexeme ++ [eof.toLexeme]) =
        x ++ canonicalIn [] [{ symbol := .eof }] := by
    intro source skip eof hending hletters
    have hyields : Place.Yields _ (Tokens.ofSource source skip).tokens
      (Tokens.ofSource source skip).ending := Place.yields_ofPlace _
    obtain ⟨htokens, hlast⟩ := hyields.carriesText
    have heof : eof.toLexeme = { symbol := .eof } := by
      have htext := hlast eof hending
      have hsymbol := hyields.sound.2 eof hending
      obtain ⟨⟨symbol, value⟩, span⟩ := eof
      cases hsymbol
      cases value with
      | none => rfl
      | some text => cases htext
    have hall := hx _ hletters (exact_lettersFrom _ htokens) [{ symbol := .eof }]
    rw [Tokens.letters, map_toLexeme_lettersFrom] at hall
    rw [heof]
    exact hall
  exact ⟨_, _, lexemes_eq_some_iff.2 ⟨eof, hending, rfl⟩,
    lexemes_eq_some_iff.2 ⟨eof', hending', rfl⟩,
    (hcanonical hending hletters).trans (hcanonical hending' hletters').symm⟩

/-- The text of a tree without NaN that was parsed can be read, and its lexemes are those of the
source, up to separators and the ways of writing numbers. -/
theorem canonical_format {source : String} {options : ParseOptions} {t : Block}
    (h : parse source options = .ok t) (hnumbers : Everywhere.block numbersOnly t)
    (skipShebang : Bool) :
    ∃ ls ls', lexemes source options.skipShebang = some ls ∧
      lexemes (format t) skipShebang = some ls' ∧ canonical ls = canonical ls' := by
  obtain ⟨hletters, hsound, -⟩ := parse_sound h
  obtain ⟨eof, hending⟩ := exists_eof_of_parse h
  obtain ⟨eof', hending', hletters'⟩ :=
    letters_format (wellFormed_of_sound hsound hnumbers) skipShebang
  exact canonical_eq_of_spells hending hending' hletters hletters'

/-- The tree of the source `x={1e1;}f'a';`. -/
def tableAndText : Block :=
  ⟨[.assign [.name ⟨"x", ⟨⟨1, 1, 0⟩, ⟨1, 2, 1⟩⟩⟩]
      [.table ⟨[.positional (.number (.ofDecimal ⟨1, 1⟩) ⟨⟨1, 4, 3⟩, ⟨1, 7, 6⟩⟩)],
        ⟨⟨1, 3, 2⟩, ⟨1, 9, 8⟩⟩⟩] ⟨⟨1, 1, 0⟩, ⟨1, 9, 8⟩⟩,
    .call (.function (.var (.name ⟨"f", ⟨⟨1, 9, 8⟩, ⟨1, 10, 9⟩⟩⟩))
      (.string "a" ⟨⟨1, 10, 9⟩, ⟨1, 13, 12⟩⟩) ⟨⟨1, 9, 8⟩, ⟨1, 13, 12⟩⟩)],
    ⟨⟨1, 1, 0⟩, ⟨1, 13, 12⟩⟩⟩

theorem canonical_format_table :
    parse "x={1e1;}f'a';" = .ok tableAndText ∧ Everywhere.block numbersOnly tableAndText ∧
      ∃ ls ls', lexemes "x={1e1;}f'a';" false = some ls ∧
        lexemes (format tableAndText) false = some ls' ∧ canonical ls = canonical ls' := by
  have hparse : parse "x={1e1;}f'a';" = .ok tableAndText := by rfl
  have hnumber : (Double.ofDecimal ⟨1, 1⟩).isNaN = false := by decide +kernel
  have hnumbers : Everywhere.block numbersOnly tableAndText := by
    simp [tableAndText, Everywhere.block, Everywhere.statements, Everywhere.statement,
      Everywhere.targets, Everywhere.target, Everywhere.expressions, Everywhere.expression,
      Everywhere.table, Everywhere.fields, Everywhere.field, Everywhere.primary, Everywhere.call,
      Everywhere.arguments, numbersOnly, Expression.IsNumber, hnumber]
  exact ⟨hparse, hnumbers, canonical_format hparse hnumbers false⟩

end LuaSource
