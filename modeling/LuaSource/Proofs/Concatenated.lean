-- SUMMARY: A source that comes behind another one and a semicolon is parsed as it is alone.
import LuaSource.Proofs.Accept
import LuaSource.Proofs.Grammar.Semicolon
import LuaSource.Proofs.Grammar.Shifted
import LuaSource.Proofs.Lexer.Seam

/-!
# Concatenated sources

Two sources can be put behind each other, with a newline and a semicolon between them, unless the
first one ends with a `return` or a `break`. What has been parsed leaves no trace: the second source
has the same statements as alone, or the same fault, at another place.
-/

namespace LuaSource

variable {first second : String} {options : ParseOptions} {b : Block}

/-- How far a source is moved that stands behind another one, a newline and a semicolon. -/
def Shift.between (first : String) : Shift := .behind (first ++ "\n;").toList

/-- A newline behind a carriage return goes together with it. -/
example : Shift.between "é\r" = ⟨1, 1, 5⟩ := by rfl

/-- A fault of a source that is moved. -/
def ParseError.shifted (e : ParseError) (d : Shift) : ParseError :=
  { d.fault e.toLocated with chunkName := e.chunkName }

/-! ## Tokens -/

theorem Tokens.ofSource_append {eof : Token}
    (hfirst : (ofSource first false).ending = .ok eof)
    (hsecond : second.toList.head? ≠ some '\uFEFF') :
    ∃ semicolon : Token, semicolon.symbol = .semicolon ∧
      ofSource (first ++ "\n;" ++ second) false =
        ⟨(ofSource first false).tokens ++
            semicolon :: (ofSource second false).tokens.map (·.shifted (.between first)),
          (Shift.between first).result (ofSource second false).ending⟩ := by
  have hyields := Place.yields_ofPlace (Place.ofText first.toList)
  have hyields' := Place.yields_ofPlace (Place.ofText second.toList)
  rw [show (ofPlace (Place.ofText first.toList)).ending = .ok eof from hfirst] at hyields
  rw [Place.ofText_eq hsecond] at hyields'
  obtain ⟨semicolon, hlexeme, -, hall⟩ := hyields.seam hyields'
  have hfirst' : first.toList ++ ['\n', ';'] = (first ++ "\n;").toList := by
    rw [String.toList_append]
    rfl
  have hsource : first.toList ++ '\n' :: ';' :: second.toList =
      (first ++ "\n;" ++ second).toList := by
    rw [String.toList_append, ← hfirst', List.append_assoc]
    rfl
  rw [hfirst', hsource] at hall
  refine ⟨semicolon, congrArg Lexeme.symbol hlexeme, ?_⟩
  show ofPlace (Place.ofText _) = _
  rw [hall.ofPlace_eq]
  show _ = Tokens.mk (_ ++ _ :: (ofPlace (Place.ofText second.toList)).tokens.map _)
    (Shift.result _ (ofPlace (Place.ofText second.toList)).ending)
  rw [Place.ofText_eq hsecond]
  rfl

/-! ## Chunks -/

theorem Shape.map_statements_of_block_eq {b b' : Block} (h : block b = block b') :
    b.statements.map statement = b'.statements.map statement := by
  obtain ⟨ss, span⟩ := b
  obtain ⟨ss', span'⟩ := b'
  rw [block, block, statements_eq_map, statements_eq_map] at h
  exact congrArg Block.statements h

theorem Window.errorWithin?_append (ts us : List Token) (r : Except (Located LexError) Token)
    (p q : Position) (n : Nat) :
    errorWithin? ⟨ts ++ us, r, p⟩ (ts.length + (n + 1)) = errorWithin? ⟨us, r, q⟩ (n + 1) := by
  unfold errorWithin?
  dsimp only
  rw [show ts.length + (n + 1) - 1 = ts.length + n from rfl, List.drop_length_add_append]
  rfl

section Chunks

variable {ts : Tokens} {us : List Token} {semicolon : Token} {d : Shift} {depth : Nat}

/-- The tokens that stand behind others and a semicolon. -/
def Tokens.behind (ts : Tokens) (us : List Token) (semicolon : Token) (d : Shift) : Tokens :=
  ⟨us ++ semicolon :: ts.tokens.map (·.shifted d), d.result ts.ending⟩

/-- What cannot be read ends the parse before the second chunk, wherever it stands. -/
theorem Tokens.errorWithin?_behind :
    (ts.behind us semicolon d).window.errorWithin? (us.length + 1 + 2) =
      (ts.window.errorWithin? 2).map (·.shifted d) := by
  have hshifts : ts.window.Shifts d 0
      ⟨ts.tokens.map (·.shifted d), d.result ts.ending, .start⟩ := ⟨rfl, rfl, nofun⟩
  have happend := Window.errorWithin?_append (us ++ [semicolon]) (ts.tokens.map (·.shifted d))
    (d.result ts.ending) .start .start 1
  rw [← hshifts.errorWithin?, ← happend, List.length_append, List.append_assoc]
  rfl

/-- The chunk behind the semicolon begins where all tokens before it are taken. -/
theorem Tokens.advance_behind (h : ts.window.errorWithin? 2 = none) :
    ∃ v, (ts.behind us semicolon d).window.advance (us.length + 1) = .ok v ∧
      ts.window.Shifts d 0 v := by
  have hnone : (ts.behind us semicolon d).window.errorWithin? (us.length + 1 + 2) = none := by
    rw [errorWithin?_behind, h]
    rfl
  obtain ⟨v, hv⟩ := Window.advance_of_none hnone
  refine ⟨v, hv, ?_, ?_, nofun⟩
  · rw [Window.ahead_of_advance hv]
    show List.drop (us.length + 1) (us ++ semicolon :: _) = _
    rw [List.drop_length_add_append]
    rfl
  · rw [Window.ending_of_advance hv]
    rfl

/-- Before the second chunk begins, its first two tokens have to be read. -/
theorem Tokens.advance_behind_of_some {e : Located LexError}
    (h : ts.window.errorWithin? 2 = some e) :
    (ts.behind us semicolon d).window.advance (us.length + 1) = .error (d.fault e.toFault) := by
  refine @Window.advance_succ_of_some _ _ (e.shifted d) ?_
  rw [errorWithin?_behind, h]
  rfl

section Block

variable (hproper : (ts.behind us semicolon d).window.Proper)
  (hs : semicolon.symbol = .semicolon) (hl : lettersFrom .start us ∈ Spelling.block b)
  (hopen : ∀ s ∈ b.statements, s.isLast = false) (hb : Everywhere.block grammatical b)
  (hneed : Need.block b ≤ depth)

include hproper hs hl hopen hb hneed

/-- The tokens of the block and the semicolon are taken, and what is parsed from there on adds its
statements to those of the block. -/
theorem Tokens.parse_behind_eq :
    ∃ (ss : List Statement) (span : List Statement → Span),
      ss.map Shape.statement = b.statements.map Shape.statement ∧
      (ts.behind us semicolon d).parse depth =
        ((ts.behind us semicolon d).window.advance (us.length + 1)).bind fun v =>
          (Grammar.chunk (Level.ofDepth depth) v).map fun r =>
            ⟨ss ++ r.1.statements, span (ss ++ r.1.statements)⟩ := by
  obtain ⟨ss, hss, hchunk⟩ := Semicolon.chunk_behind hproper rfl hs hl hopen hb hneed
  refine ⟨ss, Grammar.blockSpan (ts.behind us semicolon d).window.current.span.start, hss, ?_⟩
  rw [parse_eq]
  cases htwo : (ts.behind us semicolon d).window.errorWithin? 2 with
  | some e =>
    obtain ⟨hending, hlength⟩ := Window.errorWithin?_eq_some_iff.1 htwo
    have hall : (ts.behind us semicolon d).window.errorWithin? (us.length + 1 + 2) = some e :=
      Window.errorWithin?_eq_some_iff.2 ⟨hending, by omega⟩
    rw [Window.advance_succ_of_some hall]
    rfl
  | none =>
    dsimp only
    rw [hchunk]
    cases (ts.behind us semicolon d).window.advance (us.length + 1) with
    | error e => rfl
    | ok v =>
      dsimp only [Except.bind]
      cases Grammar.chunk (Level.ofDepth depth) v <;> rfl

/-- Tokens behind those of a block and a semicolon are parsed as they are alone. -/
theorem Tokens.parse_behind :
    (∀ b', ts.parse depth = .ok b' → ∃ b'', (ts.behind us semicolon d).parse depth = .ok b'' ∧
      b''.statements.map Shape.statement =
        b.statements.map Shape.statement ++ b'.statements.map Shape.statement) ∧
    ∀ e, ts.parse depth = .error e →
      (ts.behind us semicolon d).parse depth = .error (d.fault e) := by
  obtain ⟨ss, span, hss, hparse⟩ := parse_behind_eq hproper hs hl hopen hb hneed
  rw [hparse, parse_eq]
  cases h : ts.window.errorWithin? 2 with
  | some e =>
    rw [advance_behind_of_some h]
    refine ⟨nofun, ?_⟩
    rintro _ ⟨⟩
    rfl
  | none =>
    obtain ⟨v, hadvance, hshifts⟩ := advance_behind h
    obtain ⟨hok, herror⟩ := hshifts.chunk depth
    rw [hadvance]
    dsimp only [Except.bind]
    cases hrun : Grammar.chunk (Level.ofDepth depth) ts.window with
    | ok r =>
      obtain ⟨b'', v', hv', hshape⟩ := hok _ _ hrun
      refine ⟨?_, nofun⟩
      rintro _ ⟨⟩
      rw [hv']
      refine ⟨_, rfl, ?_⟩
      rw [List.map_append, hss, Shape.map_statements_of_block_eq hshape]
    | error e =>
      refine ⟨nofun, ?_⟩
      rintro _ ⟨⟩
      rw [herror _ hrun]
      rfl

end Block

end Chunks

/-! ## Sources -/

/-- Sources can be put behind each other, with a newline and a semicolon between them. The second
one adds the statements that it has alone, or the fault that it has alone, which is then where the
second source is. Only a `return` or a `break` cannot have other statements behind it, and only at
its start can a source have a mark of byte order. -/
theorem parse_append (hskip : options.skipShebang = false)
    (hfirst : parse first options = .ok b) (hopen : ∀ s ∈ b.statements.getLast?, s.isLast = false)
    (hsecond : second.toList.head? ≠ some '\uFEFF') :
    (∀ b', parse second options = .ok b' →
      ∃ b'', parse (first ++ "\n;" ++ second) options = .ok b'' ∧
        b''.statements.map Shape.statement =
          b.statements.map Shape.statement ++ b'.statements.map Shape.statement) ∧
    ∀ e, parse second options = .error e →
      parse (first ++ "\n;" ++ second) options = .error (e.shifted (.between first)) := by
  obtain ⟨hletters, hsound, hneed⟩ := parse_sound hfirst
  obtain ⟨eof, hending⟩ := exists_eof_of_parse hfirst
  rw [hskip] at hletters hending
  obtain ⟨semicolon, hsemicolon, hsource⟩ := Tokens.ofSource_append hending hsecond
  have hproper := Tokens.proper_ofSource (first ++ "\n;" ++ second) false
  rw [hsource] at hproper
  have hgrammatical := Everywhere.mono_block sound_implies_grammatical b hsound
  have hall : ∀ s ∈ b.statements, s.isLast = false := by
    obtain ⟨ss, span⟩ := b
    exact lastOnly.isLast_eq_false hgrammatical.1 hopen
  obtain ⟨hok, herror⟩ := Tokens.parse_behind hproper hsemicolon hletters hall hgrammatical hneed
  constructor
  · intro b' hb'
    rw [parse_eq_ok_iff, hskip] at hb'
    obtain ⟨b'', hb'', hstatements⟩ := hok b' hb'
    exact ⟨b'', parse_eq_ok_iff.2 (by rw [hskip, hsource]; exact hb''), hstatements⟩
  · intro e he
    rw [parse_eq_error_iff, hskip] at he
    refine parse_eq_error_iff.2 ⟨?_, he.2⟩
    rw [hskip, hsource]
    exact herror _ he.1

/-- A fault that tells where a block was opened tells it for the line that the block is on now. -/
theorem parse_append_call :
    parse "do\n" = .error ⟨⟨.unclosed "end" "do" 1 "<eof>", ⟨⟨2, 1, 3⟩, ⟨2, 1, 3⟩⟩⟩, "<unknown>"⟩ ∧
      parse ("f()" ++ "\n;" ++ "do\n") =
        .error ⟨⟨.unclosed "end" "do" 2 "<eof>", ⟨⟨3, 1, 8⟩, ⟨3, 1, 8⟩⟩⟩, "<unknown>"⟩ := by
  have hcall : parse "f()" = .ok ⟨[.call (.function (.var (.name ⟨"f", ⟨⟨1, 1, 0⟩, ⟨1, 2, 1⟩⟩⟩))
      (.list [] ⟨⟨1, 2, 1⟩, ⟨1, 4, 3⟩⟩) ⟨⟨1, 1, 0⟩, ⟨1, 4, 3⟩⟩)], ⟨⟨1, 1, 0⟩, ⟨1, 4, 3⟩⟩⟩ := by rfl
  have hopened : parse "do\n" =
      .error ⟨⟨.unclosed "end" "do" 1 "<eof>", ⟨⟨2, 1, 3⟩, ⟨2, 1, 3⟩⟩⟩, "<unknown>"⟩ := by rfl
  refine ⟨hopened, ?_⟩
  have hopen : ∀ s ∈ [Statement.call (.function (.var (.name ⟨"f", ⟨⟨1, 1, 0⟩, ⟨1, 2, 1⟩⟩⟩))
      (.list [] ⟨⟨1, 2, 1⟩, ⟨1, 4, 3⟩⟩) ⟨⟨1, 1, 0⟩, ⟨1, 4, 3⟩⟩)].getLast?, s.isLast = false := by
    rintro s ⟨⟩
    rfl
  exact (@parse_append _ "do\n" {} _ rfl hcall hopen (by decide)).2 _ hopened

end LuaSource
