-- SUMMARY: The tokens of two texts with a newline and a semicolon between them.
import LuaSource.Proofs.Lexeme.Written
import LuaSource.Proofs.Lexer.Places
import LuaSource.Proofs.Lexer.Shift

/-!
# Texts behind each other

A newline ends whatever comment a text ends with, and a semicolon goes together with nothing. So
behind these two characters another text is read as if it stood alone, and the tokens before them
stay as they are.
-/

namespace LuaSource

/-- The position at the end of a text. -/
def Position.behind (text : List Char) : Position := .at text (String.utf8Len text)

/-- The shift of a text that stands behind another one. -/
def Shift.behind (text : List Char) : Shift := .to (.behind text)

theorem Position.at_append (text rest : List Char) :
    Position.at (text ++ rest) (String.utf8Len text) = .behind text := by
  have hall := firstBytes_append text []
  rw [List.append_nil] at hall
  rw [behind, Position.at, Position.at, firstBytes_append, hall]

theorem Position.line_lt_after_newline (p : Position) (cs : List Char) :
    p.line < (p.after (cs ++ ['\n'])).line := by
  induction cs generalizing p with
  | nil => exact Nat.lt_succ_self _
  | cons c cs ih => exact Nat.lt_of_le_of_lt (p.line_next_le c _) (ih _)

namespace Place

variable {p q : Place} {t : Token}

/-- A newline before it keeps a text from being read as a mark of byte order. -/
theorem ofText_append (cs ds : List Char) :
    ofText (cs ++ '\n' :: ds) = ⟨(ofText cs).rest ++ '\n' :: ds, (ofText cs).position⟩ := by
  cases cs with
  | nil => rfl
  | cons c cs =>
    rw [List.cons_append, ofText, ofText]
    split <;> rfl

theorem offset_ofText (cs : List Char) :
    (ofText cs).position.line = 1 ∧
      (ofText cs).position.offset + String.utf8Len (ofText cs).rest = String.utf8Len cs := by
  obtain ⟨lead, hcs, -, hposition, -⟩ := exists_lead cs
  have hlength := congrArg String.utf8Len hcs
  rw [String.utf8Len_append] at hlength
  rw [hposition, hlength]
  exact ⟨rfl, rfl⟩

/-- Before the end of a text there are blanks and comments. -/
theorem trivia_of_eof (h : p.readToken = (.ok t, q)) (ht : t.symbol = .eof) :
    Trivia.read p.rest = ⟨p.rest.length, .ok ()⟩ := by
  obtain ⟨blanks, rest, n, hrest, htrivia, hlexeme, -⟩ := readToken_eq_ok h
  cases rest with
  | cons c cs => exact absurd ht (Lexeme.sound_read hlexeme).2
  | nil => rwa [hrest, List.append_nil] at *

/-- The semicolon is read behind what the text before it ends with. -/
theorem readToken_semicolon (h : Trivia.read p.rest = ⟨p.rest.length, .ok ()⟩)
    (cs : List Char) :
    ∃ semicolon : Token, semicolon.toLexeme = { symbol := .semicolon } ∧
      1 ≤ semicolon.span.stop.line ∧ 1 ≤ semicolon.span.stop.column ∧
      semicolon.span.stop.offset =
        p.position.offset + String.utf8Len (p.rest ++ ['\n', ';']) ∧
      Place.readToken ⟨p.rest ++ '\n' :: ';' :: cs, p.position⟩ =
        (.ok semicolon, ⟨cs, semicolon.span.stop⟩) := by
  have hends : Trivia.Ends (';' :: cs) := by
    rintro c ⟨⟩
    exact ⟨rfl, nofun⟩
  have hblanks : Trivia.read (p.rest ++ ['\n'] ++ ([';'] ++ cs)) =
      ⟨(p.rest ++ ['\n']).length, .ok ()⟩ := by
    rw [List.append_assoc, List.length_append]
    show Trivia.read (p.rest ++ '\n' :: ';' :: cs) = _
    rw [Trivia.read_newline h, Trivia.read_of_ends hends]
    rfl
  have hlexeme : Lexeme.read ([';'] ++ cs) = ⟨[';'].length, .ok { symbol := .semicolon }⟩ :=
    Lexeme.read_symbol (s := .semicolon) rfl fun _ _ => rfl
  have hread := readToken_ok (p := p.position) hblanks hlexeme
  rw [List.append_assoc] at hread
  refine ⟨_, rfl, ?_, Nat.le_add_left 1 _, ?_, hread⟩
  · have hline : 1 ≤ (p.position.after (p.rest ++ ['\n'])).line :=
      Nat.zero_lt_of_lt (p.position.line_lt_after_newline p.rest)
    exact hline.trans (Position.line_le_after _ _)
  · rw [Position.offset_after, Position.offset_after, Nat.add_assoc, ← String.utf8Len_append,
      List.append_assoc]
    rfl

/-- The tokens of two texts are the tokens of the first one, a semicolon, and those of the second
one. -/
theorem Yields.seam {cs ds : List Char} {ts us : List Token} {eof : Token}
    {r : Except (Located LexError) Token} (h : (ofText cs).Yields ts (.ok eof))
    (h' : Yields ⟨ds, Position.start⟩ us r) :
    ∃ semicolon : Token, semicolon.toLexeme = { symbol := .semicolon } ∧
      semicolon.span.stop = Position.behind (cs ++ ['\n', ';']) ∧
      (ofText (cs ++ '\n' :: ';' :: ds)).Yields
        (ts ++ semicolon :: us.map (·.shifted (.behind (cs ++ ['\n', ';']))))
        ((Shift.behind (cs ++ ['\n', ';'])).result r) := by
  rw [← List.append_nil ts] at h
  obtain ⟨text, q, hrest, hq, -, hoffset, -, hcut⟩ := h.cut
  obtain ⟨-, hlength⟩ := offset_ofText cs
  have htrivia : Trivia.read q.rest = ⟨q.rest.length, .ok ()⟩ := by
    cases hq with
    | ends hread hr => exact trivia_of_eof hread (hr eof rfl)
  obtain ⟨semicolon, hlexeme, hline, hcolumn, hbytes, hread⟩ := readToken_semicolon htrivia ds
  -- The second text begins where the semicolon ends.
  have hsecond : Yields ⟨ds, semicolon.span.stop⟩ (us.map (·.shifted (.to semicolon.span.stop)))
      ((Shift.to semicolon.span.stop).result r) := by
    have hshifted := h'.shifted (d := .to semicolon.span.stop) (Nat.le_refl 1)
    rwa [Place.shifted, Position.shifted_start hline hcolumn] at hshifted
  have hsymbol : semicolon.symbol ≠ .eof := by
    rw [show semicolon.symbol = .semicolon from congrArg Lexeme.symbol hlexeme]
    decide
  have hall := hcut (q.rest ++ '\n' :: ';' :: ds) _ _ (.newline_behind _ _)
    (.token hread hsymbol hsecond)
  rw [← List.append_assoc, ← hrest, ← ofText_append cs (';' :: ds)] at hall
  -- The position of the end of the semicolon is the one that belongs to its offset.
  have htrue := (hall.trueIn (.refl _)).1 _ (List.mem_append_right ts List.mem_cons_self)
  have hbehind : semicolon.span.stop = .behind (cs ++ ['\n', ';']) := by
    have hsource : cs ++ '\n' :: ';' :: ds = (cs ++ ['\n', ';']) ++ ds := by simp
    have hoffset' : semicolon.span.stop.offset = String.utf8Len (cs ++ ['\n', ';']) := by
      have hsplit := congrArg String.utf8Len hrest
      rw [String.utf8Len_append] at hsplit
      rw [hbytes, hoffset, String.utf8Len_append, String.utf8Len_append, ← hlength, hsplit]
      omega
    rw [htrue.2.eq_at, hoffset', hsource, Position.at_append]
  exact ⟨semicolon, hlexeme, hbehind, by rwa [hbehind] at hall⟩

end Place

end LuaSource
