-- SUMMARY: Calls of a lexer on one source: each answers for its place, whatever came before.
import LuaSource.Proofs.Excerpt
import LuaSource.Proofs.Scanner.Token

/-!
# Calls of the lexer

A lexer keeps a cursor from call to call. What a call answers depends on the place of the cursor
alone, so that it can be told from the text there, behind errors as well as behind tokens.
-/

namespace LuaSource

/-! ## Places of a source -/

namespace Place

variable {p : Place} {cs : List Char}

/-- The place is inside a text: what stands before it counts for its offset. -/
def In (p : Place) (cs : List Char) : Prop :=
  ∃ before, cs = before ++ p.rest ∧ p.position.offset = String.utf8Len before

theorem In.skip (h : p.In cs) (n : Nat) : (p.skip n).In cs := by
  obtain ⟨before, rfl, hoffset⟩ := h
  refine ⟨before ++ p.rest.take n, ?_, ?_⟩
  · rw [skip_rest, List.append_assoc, List.take_append_drop]
  · rw [Place.skip, Position.offset_after, hoffset, String.utf8Len_append]

theorem In.readToken (h : p.In cs) : p.readToken.2.In cs := by
  unfold Place.readToken
  dsimp only
  split
  · exact h.skip _
  · split
    · exact (h.skip _).skip _
    · exact (h.skip _).skip _

end Place

/-! ## Calls -/

namespace Lexer

/-- The lexer behind a number of calls. -/
def after (l : Lexer) : Nat → Lexer
  | 0 => l
  | n + 1 => l.next.2.after n

/-- What a call answers that a number of calls come before. -/
def answer (l : Lexer) (n : Nat) : Except (Located LexError) Token := (l.after n).next.1

theorem answer_zero (l : Lexer) : l.answer 0 = l.next.1 := rfl

/-- The lexer is at a place, and no part of a value is left in its buffer that could get into
another one. -/
def At (l : Lexer) (p : Place) : Prop := l.cursor.place = p ∧ Scanner.Clean l.cursor

variable {l : Lexer} {p : Place}

theorem at_ofSource (source : String) (skipShebang : Bool) :
    (ofSource source skipShebang).At (Place.ofSource source.toList skipShebang) := by
  cases skipShebang <;> exact ⟨rfl, .inl rfl⟩

/-- A call answers what is read at the place, and goes on behind it. -/
theorem At.next (h : l.At p) : l.next.1 = p.readToken.1 ∧ l.next.2.At p.readToken.2 := by
  obtain ⟨rfl, hclean⟩ := h
  obtain ⟨b, hclean, hnext⟩ := Scanner.next_answers hclean
  rw [Lexer.next, hnext]
  cases l.cursor.place.readToken.1 with
  | ok t => exact ⟨rfl, rfl, hclean⟩
  | error e => exact ⟨rfl, rfl, hclean⟩

/-- Every call answers for some place of the source. -/
theorem At.answer {cs : List Char} (h : l.At p) (hp : p.In cs) (n : Nat) :
    ∃ q : Place, q.In cs ∧ l.answer n = q.readToken.1 := by
  induction n generalizing l p with
  | zero => exact ⟨p, hp, h.next.1⟩
  | succ n ih => exact ih h.next.2 hp.readToken

end Lexer

/-! ## Calls at lexemes

Where neither a blank nor a comment begins, a call answers what is read as a lexeme there. Where a
comment begins, it answers what is behind the comment. -/

section AtLexemes

variable {text rest : List Char} {p : Position} {l l' : Lexer}

/-- An error is about where it stopped the reading. -/
theorem Place.readToken_error {e : LexError} (hends : Trivia.Ends (text ++ rest))
    (hread : Lexeme.read (text ++ rest) = ⟨text.length, .error e⟩) :
    Place.readToken ⟨text ++ rest, p⟩ =
      (.error ⟨e, Span.empty (p.after text)⟩, ⟨rest, p.after text⟩) := by
  unfold readToken
  dsimp only
  rw [Trivia.read_of_ends hends]
  dsimp only
  rw [skip_zero, hread]
  dsimp only
  rw [skip_append]

namespace Lexer

theorem At.next_lexeme {lexeme : Lexeme} (h : l.At ⟨text ++ rest, p⟩)
    (hends : Trivia.Ends (text ++ rest))
    (hread : Lexeme.read (text ++ rest) = ⟨text.length, .ok lexeme⟩) :
    l.next.1 = .ok { lexeme with span := ⟨p, p.after text⟩ } ∧ l.next.2.At ⟨rest, p.after text⟩ := by
  have htoken : Place.readToken ⟨text ++ rest, p⟩ = _ :=
    @Place.readToken_ok [] text rest p lexeme (Trivia.read_of_ends hends) hread
  have hnext := h.next
  rw [htoken] at hnext
  exact hnext

theorem At.next_error {e : LexError} (h : l.At ⟨text ++ rest, p⟩)
    (hends : Trivia.Ends (text ++ rest))
    (hread : Lexeme.read (text ++ rest) = ⟨text.length, .error e⟩) :
    l.next.1 = .error ⟨e, Span.empty (p.after text)⟩ ∧ l.next.2.At ⟨rest, p.after text⟩ := by
  have hnext := h.next
  rw [Place.readToken_error hends hread] at hnext
  exact hnext

/-- A call before a comment answers like a call behind it, and leaves the lexer at the same place. -/
theorem At.next_skip (h : l.At ⟨text ++ rest, p⟩) (h' : l'.At ⟨rest, p.after text⟩)
    (hbreaks : Breaks text rest)
    (htrivia : Trivia.read (text ++ rest) = (Trivia.read rest).after text.length) :
    l.next.1 = l'.next.1 ∧ l.next.2.cursor.place = l'.next.2.cursor.place := by
  rw [h.next.1, h'.next.1, h.next.2.1, h'.next.2.1, Place.readToken_skip hbreaks htrivia]
  exact ⟨rfl, rfl⟩

end Lexer

end AtLexemes

/-! ## Texts of tokens -/

/-- No token is read where a mark of byte order stands. -/
theorem Place.head?_ne_mark {p q : Place} {t : Token} (h : p.readToken = (.ok t, q)) :
    p.rest.head? ≠ some '\uFEFF' := by
  intro hhead
  obtain ⟨cs, hcs⟩ := List.head?_eq_some_iff.1 hhead
  obtain ⟨blanks, rest, n, hrest, htrivia, hlexeme, -⟩ := readToken_eq_ok h
  have hends : Trivia.Ends p.rest := by
    rw [hcs]
    rintro c ⟨⟩
    exact ⟨rfl, nofun⟩
  rw [← hrest, Trivia.read_of_ends hends] at htrivia
  injection htrivia with hlength
  obtain rfl := List.length_eq_zero_iff.1 hlength.symm
  rw [← List.nil_append rest, ← hrest] at hlexeme
  exact Lexeme.head?_ne_mark hlexeme hhead

namespace Lexer

/-- Every token that a call answers with, behind whatever tokens and errors, is the one token of its
own text. -/
theorem tokenize_text {source : String} {skipShebang : Bool} {n : Nat} {t : Token}
    (h : (ofSource source skipShebang).answer n = .ok t) (ht : t.symbol ≠ .eof) :
    ∃ t' eof, tokenize (t.span.text source) = .ok [t', eof] ∧ t'.toLexeme = t.toLexeme ∧
      eof.symbol = .eof := by
  obtain ⟨p, ⟨skipped, hsource, hoffset⟩, hanswer⟩ := (at_ofSource source skipShebang).answer
    (Place.exists_before source.toList skipShebang) n
  have hread : p.readToken = (.ok t, p.readToken.2) := Prod.ext (hanswer.symm.trans h) rfl
  have hyields : p.Yields ([] ++ ([t] ++ _)) _ := .token hread ht (Place.yields_ofPlace _)
  obtain ⟨before, text, behind, hrest, hstart, hstop, hletters, -⟩ := hyields.excerpt
  have htext : t.span.text source = String.ofList text := by
    refine @Span.text_eq source (skipped ++ before) text behind t.span ?_ ?_ ?_
    · rw [hsource, hrest, List.append_assoc]
    · rw [hstart, hoffset, String.utf8Len_append]
    · rw [hstop t rfl, hstart, hoffset, String.utf8Len_append]
  obtain ⟨ts, eof, hts, hletter⟩ := hletters Position.start
  have hlength := congrArg List.length hletter
  rw [length_lettersFrom, length_lettersFrom] at hlength
  obtain ⟨t', rfl⟩ := List.length_eq_one_iff.1 hlength
  have hplace : Place.ofText text = ⟨text, Position.start⟩ := by
    cases text with
    | nil => rfl
    | cons c cs =>
      cases hts with
      | token hread _ _ =>
        rw [Place.ofText, if_neg]
        rintro rfl
        exact Place.head?_ne_mark hread rfl
  refine ⟨t', eof, ?_, congrArg Letter.toLexeme (List.cons.inj hletter).1, hts.sound.2 eof rfl⟩
  rw [tokenize, htext, String.toList_ofList, hplace, hts.ofPlace_eq]
  rfl

/-- Where an escape is too large, the string that it is in is dropped, and `b` is read next. -/
def nameBehindError : Token := { symbol := .name, value := "b", span := ⟨⟨1, 7, 6⟩, ⟨1, 8, 7⟩⟩ }

theorem tokenize_text_name :
    (ofSource "\"a\\400b" false).answer 1 = .ok nameBehindError ∧
      ∃ t' eof, tokenize (nameBehindError.span.text "\"a\\400b") = .ok [t', eof] ∧
        t'.toLexeme = nameBehindError.toLexeme ∧ eof.symbol = .eof := by
  have h : (ofSource "\"a\\400b" false).answer 1 = .ok nameBehindError := by rfl
  exact ⟨h, tokenize_text h nofun⟩

end Lexer

end LuaSource
