-- SUMMARY: The sources that are parsed, and their trees.
import LuaSource.Chunk
import LuaSource.Proofs.Grammar.GiveStatement
import LuaSource.Proofs.Grammar.ReadStatement
import LuaSource.Proofs.Grammar.Spans
import LuaSource.Proofs.Lexer.Stream

/-!
# Accepted sources

A source is parsed if and only if its letters spell a grammatical tree that takes no more levels
than there are, and this tree is the result.
-/

namespace LuaSource

/-! ## From a source to its window -/

theorem sound_implies_grammatical : sound.Implies grammatical where
  statements _ h := h
  statement _ _ := trivial
  expression _ h := h.1
  name _ _ := trivial

namespace Tokens

/-- The window on all tokens. -/
def window (ts : Tokens) : Window := ⟨ts.tokens, ts.ending, Position.start⟩

@[simp] theorem letters_window (ts : Tokens) : ts.window.letters = ts.letters := rfl

theorem proper_ofPlace (p : Place) : (Tokens.ofPlace p).window.Proper := by
  obtain ⟨hahead, hending⟩ := (Place.yields_ofPlace p).sound
  exact ⟨hahead, hending⟩

theorem proper_ofSource (source : String) (skipShebang : Bool) :
    (ofSource source skipShebang).window.Proper := proper_ofPlace _

theorem parse_eq (ts : Tokens) (depth : Nat) :
    ts.parse depth =
      match ts.window.errorWithin? 2 with
      | some e => .error e.toFault
      | none => (Grammar.chunk (Level.ofDepth depth) ts.window).map Prod.fst := by
  have hparse : ts.parse depth =
      (Window.ofTokens ts).bind fun w =>
        (Grammar.chunk (Level.ofDepth depth) w).bind fun r => .ok r.1 := rfl
  have hwindow : Window.ofTokens ts =
      match ts.window.errorWithin? 2 with
      | some e => .error e.toFault
      | none => .ok ts.window := rfl
  rw [hparse, hwindow]
  cases ts.window.errorWithin? 2 with
  | some e => rfl
  | none =>
    dsimp only [Except.bind]
    cases Grammar.chunk (Level.ofDepth depth) ts.window <;> rfl

theorem errorWithin?_of_parse {ts : Tokens} {depth : Nat} {b : Block} (h : ts.parse depth = .ok b) :
    ts.window.errorWithin? 2 = none := by
  rw [parse_eq] at h
  split at h
  · cases h
  · assumption

/-- A tree that is read is read by the grammar. -/
theorem exists_chunk {ts : Tokens} {depth : Nat} {b : Block} (h : ts.parse depth = .ok b) :
    ∃ w, Grammar.chunk (Level.ofDepth depth) ts.window = .ok (b, w) := by
  rw [parse_eq] at h
  split at h
  · cases h
  · cases hchunk : Grammar.chunk (Level.ofDepth depth) ts.window with
    | error e =>
      rw [hchunk] at h
      cases h
    | ok r =>
      rw [hchunk] at h
      cases h
      exact ⟨r.2, rfl⟩

end Tokens

theorem parse_eq_ok_iff {source : String} {options : ParseOptions} {b : Block} :
    parse source options = .ok b ↔
      (Tokens.ofSource source options.skipShebang).parse options.maxDepth = .ok b := by
  rw [parse]
  cases (Tokens.ofSource source options.skipShebang).parse options.maxDepth with
  | error e => simp [Except.mapError]
  | ok b' => simp [Except.mapError]

theorem parse_eq_error_iff {source : String} {options : ParseOptions} {e : ParseError} :
    parse source options = .error e ↔
      (Tokens.ofSource source options.skipShebang).parse options.maxDepth = .error e.toLocated ∧
        e.chunkName = options.chunkName := by
  rw [parse]
  cases (Tokens.ofSource source options.skipShebang).parse options.maxDepth with
  | error fault =>
    obtain ⟨located, chunkName⟩ := e
    simp [Except.mapError, eq_comm]
  | ok b => simp [Except.mapError]

/-! ## Lexemes of a source -/

/-- The lexemes of a source, if all of it can be read. -/
def lexemes (source : String) (skipShebang : Bool) : Option (List Lexeme) :=
  (Tokens.ofSource source skipShebang).toList.toOption.map (List.map Token.toLexeme)

theorem lexemes_eq_some_iff {source : String} {skipShebang : Bool} {ls : List Lexeme} :
    lexemes source skipShebang = some ls ↔
      ∃ eof, (Tokens.ofSource source skipShebang).ending = .ok eof ∧
        ls = (Tokens.ofSource source skipShebang).tokens.map Token.toLexeme ++ [eof.toLexeme] := by
  rw [lexemes, Tokens.toList]
  cases (Tokens.ofSource source skipShebang).ending with
  | error e => simp [Except.map, Except.toOption]
  | ok eof => simp [Except.map, Except.toOption, eq_comm]

/-! ## Chunks -/

section Chunk

open Parse

variable {depth : Nat} {w : Window}

theorem chunk_meets (hw : w.Proper) :
    (Grammar.chunk (Level.ofDepth depth)).Meets w w Spelling.block (Everywhere.block sound)
      fun b w' => Need.block b ≤ depth ∧ w'.current.symbol = .eof := by
  refine Follows.start (Φ := fun _ => True) ?_ hw trivial
  refine .bind (fun w hw _ => (Read.sound_ofDepth depth).block [] w hw) ?_ fun b hb => ?_
  · refine ⟨⟨[], default⟩, ⟨fun _ hs => absurd hs List.not_mem_nil, trivial⟩, [], ?_, isPlain_nil⟩
    rw [Spelling.block, Spelling.statements, mul_one]
    exact Language.nil_mem_kstar _
  · refine .symbol fun s => ?_
    have hle : 1 * Spelling.block b ≤ Spelling.block b := (one_mul _).le
    split
    · next hs => exact .pure hle hb fun w h => ⟨h.1.1, h.2.trans hs⟩
    · exact .fail (.of_le hle hb)

theorem chunk_gives {b : Block} (hw : w.Ready) (hl : w.letters ∈ Spelling.block b)
    (hb : Everywhere.block grammatical b) (hneed : Need.block b ≤ depth) :
    (Grammar.chunk (Level.ofDepth depth)).Gives w 1 fun b' => Shape.block b' = Shape.block b := by
  have hend : Begins (1 : Language Letter) (· = .eof) := by
    intro u hu
    rw [(Language.mem_one u).1 hu]
    rfl
  rw [← mul_one (Spelling.block b)] at hl
  refine ((Give.complete_ofDepth depth).block hw hl hb hneed (fun _ hs => absurd hs List.not_mem_nil)
    (hend.mono fun _ => .inl)).bind fun b' w' hw' hl' hb' => .symbol ?_
  rw [if_pos (hw'.begins hl' hend)]
  exact .pure hw' hl' hb'

end Chunk

/-! ## Sources -/

variable {source : String} {options : ParseOptions} {b : Block}

/-- A source that is parsed can be read to its end. -/
theorem exists_eof_of_parse (h : parse source options = .ok b) :
    ∃ eof, (Tokens.ofSource source options.skipShebang).ending = .ok eof := by
  have hw := Tokens.proper_ofSource source options.skipShebang
  obtain ⟨w, hchunk⟩ := Tokens.exists_chunk (parse_eq_ok_iff.1 h)
  obtain ⟨hread, -, -, hend⟩ := (chunk_meets hw).ok hchunk
  obtain ⟨k, -, -, hadvance, -⟩ := (Local.chunk_local _ _ hw).advance hw hchunk
  have hall := Window.ahead_of_advance hadvance
  rw [hread.proper.ahead_eq_nil hend, eq_comm, List.drop_eq_nil_iff] at hall
  cases hending : (Tokens.ofSource source options.skipShebang).ending with
  | ok eof => exact ⟨eof, rfl⟩
  | error e =>
    -- Not all tokens could be taken, since the two behind each of them have to be read.
    have htwo := Tokens.errorWithin?_of_parse (parse_eq_ok_iff.1 h)
    have hall : (Tokens.ofSource source options.skipShebang).window.errorWithin? (k + 2) = some e :=
      Window.errorWithin?_eq_some_iff.2 ⟨hending, by omega⟩
    rw [Window.advance_of_some htwo hall] at hadvance
    cases hadvance

/-- What is said of a tree when it is the result of parsing a source. -/
theorem parse_sound (h : parse source options = .ok b) :
    (Tokens.ofSource source options.skipShebang).letters ∈ Spelling.block b ∧
      Everywhere.block sound b ∧ Need.block b ≤ options.maxDepth := by
  obtain ⟨w, hchunk⟩ := Tokens.exists_chunk (parse_eq_ok_iff.1 h)
  obtain ⟨⟨u, hu, hadvance⟩, hb, hneed, hend⟩ :=
    (chunk_meets (Tokens.proper_ofSource source options.skipShebang)).ok hchunk
  have hw : w.letters = [] := by
    rw [Window.letters, hadvance.proper.ahead_eq_nil hend]
    rfl
  have hletters := hadvance.letters
  rw [Tokens.letters_window, hw, List.append_nil] at hletters
  exact ⟨hletters.symm ▸ hu, hb, hneed⟩

theorem parse_complete {eof : Token}
    (hready : (Tokens.ofSource source options.skipShebang).ending = .ok eof)
    (hletters : (Tokens.ofSource source options.skipShebang).letters ∈ Spelling.block b)
    (hb : Everywhere.block grammatical b) (hneed : Need.block b ≤ options.maxDepth) :
    ∃ b', parse source options = .ok b' ∧ Shape.block b' = Shape.block b := by
  have hw : (Tokens.ofSource source options.skipShebang).window.Ready :=
    ⟨Tokens.proper_ofSource _ _, eof, hready⟩
  obtain ⟨b', w, hchunk, -, -, hshape⟩ := chunk_gives hw hletters hb hneed
  have hreadable : (Tokens.ofSource source options.skipShebang).window.errorWithin? 2 = none := by
    simp [Window.errorWithin?, Tokens.window, hready]
  refine ⟨b', parse_eq_ok_iff.2 ?_, hshape⟩
  rw [Tokens.parse_eq, hreadable, hchunk]
  rfl

/-- A source that can be read is parsed to the trees that its letters spell, and to no others, as
long as they are grammatical and do not take more levels than there are. -/
theorem parse_iff_spells {eof : Token}
    (hready : (Tokens.ofSource source options.skipShebang).ending = .ok eof) (b : Block) :
    (∃ b', parse source options = .ok b' ∧ Shape.block b' = Shape.block b) ↔
      (Tokens.ofSource source options.skipShebang).letters ∈ Spelling.block b ∧
        Everywhere.block grammatical b ∧ Need.block b ≤ options.maxDepth := by
  constructor
  · rintro ⟨b', hparse, hshape⟩
    obtain ⟨hletters, hb, hneed⟩ := parse_sound hparse
    have hb := Everywhere.mono_block sound_implies_grammatical b' hb
    rw [← Shape.spelling_block, ← hshape, Shape.spelling_block, ← Shape.need_block, ← hshape,
      Shape.need_block, ← Shape.everywhere_block Shape.isSpanless_grammatical, ← hshape,
      Shape.everywhere_block Shape.isSpanless_grammatical]
    exact ⟨hletters, hb, hneed⟩
  · rintro ⟨hletters, hb, hneed⟩
    exact parse_complete hready hletters hb hneed

theorem parse_iff_spells_call :
    (Tokens.ofSource "f()" false).letters ∈
        Spelling.block ⟨[.call (.function (.var (.name ⟨"f", default⟩)) (.list [] default)
          default)], default⟩ ∧
      Everywhere.block grammatical ⟨[.call (.function (.var (.name ⟨"f", default⟩))
        (.list [] default) default)], default⟩ ∧
      Need.block ⟨[.call (.function (.var (.name ⟨"f", default⟩)) (.list [] default) default)],
        default⟩ ≤ 200 := by
  have hready : (Tokens.ofSource "f()" false).ending = .ok (Token.eof ⟨1, 4, 3⟩) := by rfl
  refine (@parse_iff_spells "f()" {} _ hready _).1 ?_
  exact ⟨⟨[.call (.function (.var (.name ⟨"f", ⟨⟨1, 1, 0⟩, ⟨1, 2, 1⟩⟩⟩))
    (.list [] ⟨⟨1, 2, 1⟩, ⟨1, 4, 3⟩⟩) ⟨⟨1, 1, 0⟩, ⟨1, 4, 3⟩⟩)], ⟨⟨1, 1, 0⟩, ⟨1, 4, 3⟩⟩⟩, rfl, rfl⟩

end LuaSource
