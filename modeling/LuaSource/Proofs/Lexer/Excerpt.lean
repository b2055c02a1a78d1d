-- SUMMARY: The text of some tokens in a row, which has the same letters wherever it stands.
import LuaSource.Chunk
import LuaSource.Proofs.Lexer.Stream

/-!
# Excerpts

The text from the start of a token to the end of a later one can be read on its own: its tokens
are those that it has where it is taken from. Only their positions differ, and the first of them
is on the line on which the text starts.
-/

namespace LuaSource

/-! ## Lines -/

/-- How many lines a text takes up does not depend on where it stands. -/
theorem Position.line_after_add (p q : Position) (cs : List Char) :
    (p.after cs).line + q.line = (q.after cs).line + p.line := by
  induction cs generalizing p q with
  | nil => exact Nat.add_comm _ _
  | cons c cs ih =>
    have hnext : (p.next c cs).line + q.line = (q.next c cs).line + p.line := by
      unfold next
      split
      · dsimp only
        omega
      · split <;> exact Nat.add_comm _ _
    have hrest := ih (p.next c cs) (q.next c cs)
    rw [after_cons, after_cons]
    omega

/-- Of the position before them, the letters show the line. -/
theorem lettersFrom_congr {p q : Position} (h : p.line = q.line) (ts : List Token) :
    lettersFrom p ts = lettersFrom q ts := by
  cases ts with
  | nil => rfl
  | cons t ts => rw [lettersFrom, lettersFrom, Token.letter, Token.letter, h]

/-! ## Texts that are moved -/

namespace Place

theorem readToken_move {p q : Place} {t : Token} (h : p.readToken = (.ok t, q))
    (start : Position) :
    q.position = t.span.stop ∧ ∃ t' q', readToken ⟨p.rest, start⟩ = (.ok t', q') ∧
      q'.rest = q.rest ∧ q'.position = t'.span.stop ∧ t'.letter start = t.letter p.position := by
  obtain ⟨text, position⟩ := p
  unfold readToken at h ⊢
  simp only [skip_rest] at h ⊢
  generalize Trivia.read text = trivia at h ⊢
  obtain ⟨n, result⟩ := trivia
  cases result with
  | error e => cases h
  | ok _ =>
    dsimp only at h ⊢
    generalize Lexeme.read (text.drop n) = lexeme at h ⊢
    obtain ⟨m, result⟩ := lexeme
    cases result with
    | error e => cases h
    | ok l =>
      cases h
      refine ⟨rfl, _, _, rfl, rfl, rfl, ?_⟩
      have hline := position.line_after_add start (text.take n)
      rw [Token.letter, Token.letter]
      congr 1
      rw [Bool.eq_iff_iff, beq_iff_eq, beq_iff_eq]
      show (start.after (text.take n)).line = _ ↔ (position.after (text.take n)).line = _
      omega

/-- The letters of a text do not depend on where it stands. -/
theorem Yields.move {p : Place} {ts : List Token} {eof : Token} (h : p.Yields ts (.ok eof))
    (start : Position) :
    ∃ ts' eof', Yields ⟨p.rest, start⟩ ts' (.ok eof') ∧
      lettersFrom start ts' = lettersFrom p.position ts := by
  generalize hr : Except.ok eof = r at h
  induction h generalizing start with
  | ends h hr' =>
    subst hr
    obtain ⟨-, t', q', hread, -, -, hletter⟩ := readToken_move h start
    refine ⟨[], t', .ends hread fun u hu => ?_, rfl⟩
    cases hu
    rw [← Token.letter_symbol start, hletter, Token.letter_symbol]
    exact hr' eof rfl
  | token h ht _ ih =>
    obtain ⟨hq, t', q', hread, hrest, hq', hletter⟩ := readToken_move h start
    obtain ⟨ts', eof', hyields, hletters⟩ := ih t'.span.stop hr
    rw [← hrest, ← hq'] at hyields
    refine ⟨t' :: ts', eof', .token hread ?_ hyields, ?_⟩
    · rwa [← Token.letter_symbol start, hletter, Token.letter_symbol]
    · rw [lettersFrom, lettersFrom, hletter, hletters, hq]

end Place

/-- Wherever it stands, a text has the letters `u`. -/
def HasLetters (text : List Char) (u : List Letter) : Prop :=
  ∀ p : Position, ∃ ts eof, Place.Yields ⟨text, p⟩ ts (.ok eof) ∧ lettersFrom p ts = u

theorem Place.Yields.hasLetters {text : List Char} {p : Position} {ts : List Token} {eof : Token}
    (h : Yields ⟨text, p⟩ ts (.ok eof)) : HasLetters text (lettersFrom p ts) := h.move

/-- What a source begins with is taken for a mark of byte order or a `#` line if it looks so. -/
theorem Place.Yields.ofSource_eq {text : List Char} {ts : List Token}
    {r : Except (Located LexError) Token} (h : Yields ⟨text, Position.start⟩ ts r)
    (hmark : text.head? ≠ some '\uFEFF') (hscript : text.head? ≠ some '#') (skipShebang : Bool) :
    Tokens.ofSource (String.ofList text) skipShebang = ⟨ts, r⟩ := by
  have hplace : Place.ofText text = ⟨text, Position.start⟩ := Place.ofText_eq hmark
  have hshebang : Place.skipShebang ⟨text, Position.start⟩ = ⟨text, Position.start⟩ := by
    rw [Place.skipShebang, Place.isScriptStart, beq_false_of_ne hscript, Bool.and_false,
      if_neg Bool.false_ne_true]
  rw [Tokens.ofSource, String.toList_ofList, hplace, hshebang, ite_self, h.ofPlace_eq]

theorem HasLetters.ofSource {text : List Char} {u : List Letter} (h : HasLetters text u)
    (hmark : text.head? ≠ some '\uFEFF') (hscript : text.head? ≠ some '#') (skipShebang : Bool) :
    ∃ eof, (Tokens.ofSource (String.ofList text) skipShebang).ending = .ok eof ∧
      (Tokens.ofSource (String.ofList text) skipShebang).letters = u := by
  obtain ⟨ts, eof, hyields, hletters⟩ := h Position.start
  rw [hyields.ofSource_eq hmark hscript skipShebang]
  exact ⟨eof, rfl, hletters⟩

/-! ## Texts of tokens -/

/-- No lexeme begins with a mark of byte order. -/
theorem Lexeme.head?_ne_mark {cs : List Char} {n : Nat} {l : Lexeme} (h : read cs = ⟨n, .ok l⟩) :
    cs.head? ≠ some '\uFEFF' := by
  intro hhead
  obtain ⟨cs, rfl⟩ := List.head?_eq_some_iff.1 hhead
  rw [read_punctuation (by decide) (by decide) rfl (by decide +kernel)] at h
  cases h

/-- Only one lexeme begins with a `#`. -/
theorem Lexeme.head?_ne_hash {cs : List Char} {n : Nat} {l : Lexeme} (h : read cs = ⟨n, .ok l⟩)
    (hl : l.symbol ≠ .hash) : cs.head? ≠ some '#' := by
  intro hhead
  obtain ⟨cs, rfl⟩ := List.head?_eq_some_iff.1 hhead
  rw [read_punctuation (by decide) (by decide) rfl (by decide +kernel)] at h
  cases h
  exact hl rfl

namespace Place

theorem readToken_trim {blanks rest : List Char} (p : Position)
    (hblanks : Trivia.read (blanks ++ rest) = ⟨blanks.length, .ok ()⟩) (hrest : Trivia.Ends rest) :
    Place.readToken ⟨blanks ++ rest, p⟩ = Place.readToken ⟨rest, p.after blanks⟩ := by
  unfold readToken
  dsimp only
  rw [hblanks, Trivia.read_of_ends hrest]
  dsimp only
  rw [skip_append, skip_zero]

variable {p : Place} {t : Token} {ts us vs : List Token} {r : Except (Located LexError) Token}

/-- The blanks before the first token can be left out. -/
theorem Yields.trim (h : p.Yields (t :: ts) r) :
    ∃ blanks rest n, p.rest = blanks ++ rest ∧ t.span.start = p.position.after blanks ∧
      Lexeme.read rest = ⟨n, .ok t.toLexeme⟩ ∧ Yields ⟨rest, t.span.start⟩ (t :: ts) r := by
  cases h with
  | token h ht hq =>
    obtain ⟨blanks, rest, n, hrest, htrivia, hlexeme, hstart, -, hends⟩ := readToken_eq_ok h
    refine ⟨blanks, rest, n, hrest, hstart, hlexeme, .token ?_ ht hq⟩
    rw [hstart, ← readToken_trim p.position htrivia hends, ← hrest]
    exact h

/-- The text from the start of the token `t` to the end of the last one in `t :: us`. -/
theorem Yields.excerpt (h : p.Yields (ts ++ (t :: us ++ vs)) r) :
    ∃ before text behind, p.rest = before ++ (text ++ behind) ∧
      t.span.start.offset = p.position.offset + String.utf8Len before ∧
      (∀ last ∈ (t :: us).getLast?,
        last.span.stop.offset = t.span.start.offset + String.utf8Len text) ∧
      HasLetters text (lettersFrom t.span.start (t :: us)) ∧
      (t.symbol ≠ .hash → text.head? ≠ some '\uFEFF' ∧ text.head? ≠ some '#') := by
  obtain ⟨before, q, hbefore, hq, -, hoffset, -, -⟩ := h.cut
  obtain ⟨blanks, rest, n, hblanks, hstart, hlexeme, hrest⟩ := hq.trim
  obtain ⟨text, q', htext, -, hposition, hoffset', hne, hcut⟩ :=
    Yields.cut (show Yields _ (t :: us ++ vs) r from hrest)
  refine ⟨before ++ blanks, text, q'.rest, ?_, ?_, fun last hlast => ?_, ?_, fun ht => ?_⟩
  · rw [hbefore, hblanks, ← htext, List.append_assoc]
  · rw [hstart, Position.offset_after, hoffset, String.utf8Len_append, Nat.add_assoc]
  · rw [Option.mem_def.1 hlast] at hposition
    rw [← hoffset', hposition]
    rfl
  · have hend : Yields ⟨[], q'.position⟩ [] (.ok (Token.eof q'.position)) :=
      .ends rfl (by rintro _ ⟨⟩; rfl)
    have hall := hcut [] [] _ nofun hend
    rw [List.append_nil, List.append_nil] at hall
    exact hall.hasLetters
  · obtain ⟨c, cs, rfl⟩ := List.exists_cons_of_ne_nil (hne (List.cons_ne_nil t us))
    dsimp only at htext
    rw [htext] at hlexeme
    have hmark := Lexeme.head?_ne_mark hlexeme
    have hhash := Lexeme.head?_ne_hash hlexeme ht
    exact ⟨hmark, hhash⟩

end Place

end LuaSource
