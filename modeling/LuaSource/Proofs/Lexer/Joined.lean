-- SUMMARY: Spelled lexemes with gaps between them are read as the tokens that they spell.
import LuaSource.Proofs.Excerpt
import LuaSource.Proofs.Format.Legible
import LuaSource.Proofs.Numeral.Grammar

/-!
# Joined spellings

Any lexemes, spelled one behind the other with a space or a newline between each two of them, are
the tokens that are read from the text. Every token stands where its lexeme is spelled.

Keywords and punctuation have one spelling each, and names and numerals are spelled as they are. A
string has many spellings, of which the one with double quotes is taken. What is spelled is read
back if a blank follows or nothing.
-/

namespace LuaSource

/-! ## Spellings -/

/-- The word is a spelling of the lexeme. -/
inductive Lexeme.Spelled : Lexeme → List Char → Prop
  | symbol {s : Symbol} (h : s.isWritten = true) : Spelled { symbol := s } s.spelling.toList
  | name {text : String} (h : IsName text) :
      Spelled { symbol := .name, value := text } text.toList
  | string (value : String) :
      Spelled { symbol := .string, value := value } (Quoted.encode value.toList)
  | number {word : List Char} (h : Numeral.IsNumeral word) :
      Spelled { symbol := .number, value := String.ofList word } word

namespace Lexeme.Spelled

variable {l : Lexeme} {word r : List Char}

theorem symbol_ne_eof (h : l.Spelled word) : l.symbol ≠ .eof := by
  cases h with
  | @symbol s hs =>
    rintro rfl
    cases hs
  | name | string | number => exact nofun

/-- What a lexeme is spelled with begins neither a blank nor a comment. -/
theorem begins (h : l.Spelled word) :
    ∃ c cs, word = c :: cs ∧ isBlank c = false ∧ c ≠ '\uFEFF' ∧ (c = '-' → cs = []) := by
  cases h with
  | symbol hs =>
    obtain ⟨c, cs, hcs, hstarts⟩ := Piece.startsWith_symbol hs
    refine ⟨c, cs, hcs, hstarts.blank, hstarts.mark, fun hminus => ?_⟩
    cases hstarts.minus hminus
    cases hcs
    rfl
  | name hname =>
    obtain ⟨⟨c, cs, htext, hc, -⟩, -⟩ := hname
    have hstarts := Piece.startsWith_of_isNameStart .space hc
    exact ⟨c, cs, htext, hstarts.blank, hstarts.mark, fun hminus => nomatch hstarts.minus hminus⟩
  | string value => exact ⟨'"', _, rfl, by decide, by decide, nofun⟩
  | number hnumeral =>
    obtain ⟨c, cs, rfl, hc | ⟨rfl, -⟩⟩ := hnumeral.begins
    · have hstarts := Piece.startsWith_of_isDigit .space hc
      exact ⟨c, cs, rfl, hstarts.blank, hstarts.mark, fun hminus => nomatch hstarts.minus hminus⟩
    · exact ⟨'.', cs, rfl, by decide, by decide, nofun⟩

/-- A lexeme is read where it is spelled. -/
theorem read (h : l.Spelled word) (hr : ∀ c ∈ r.head?, isBlank c = true) :
    Lexeme.read (word ++ r) = ⟨word.length, .ok l⟩ := by
  cases h with
  | @symbol s hs => exact read_symbol hs fun c hc => s.goesOn_of_isBlank (hr c hc)
  | name hname =>
    exact read_name hname fun c hc => Numeral.isNameContinue_of_isBlank (hr c hc)
  | string value => exact read_encode value r
  | number hnumeral =>
    obtain ⟨c, cs, rfl, -⟩ := hnumeral.begins
    exact read_numeral_append (hnumeral.beginsNumeral r) (hnumeral.size_eq hr)

end Lexeme.Spelled

/-! ## Texts of spelled lexemes -/

/-- What stands between two lexemes: one space or one newline of any form. -/
inductive Gap
  | space
  | lf
  | cr
  | crlf

def Gap.text : Gap → List Char
  | space => [' ']
  | lf => ['\n']
  | cr => ['\r']
  | crlf => ['\r', '\n']

theorem Gap.isBlank_of_mem {gap : Gap} : ∀ c ∈ gap.text, isBlank c = true := by
  cases gap <;> simp [Gap.text, isBlank]

/-- A lexeme and how it is spelled, with the gap that is left behind it if another one follows. -/
structure Spelt where
  lexeme : Lexeme
  word : List Char
  spelled : lexeme.Spelled word
  gap : Gap

namespace Spelt

/-- What stands between a lexeme and those that follow it. -/
def before (w : Spelt) (ws : List Spelt) : List Char := if ws.isEmpty then [] else w.gap.text

def joined : List Spelt → List Char
  | [] => []
  | w :: ws => w.word ++ (w.before ws ++ joined ws)

/-- The tokens of spelled lexemes from a position on, the last of them being the end. -/
def tokens (p : Position) : List Spelt → List Token
  | [] => [Token.eof p]
  | w :: ws =>
    let stop := p.after w.word
    { w.lexeme with span := ⟨p, stop⟩ } :: tokens (stop.after (w.before ws)) ws

theorem isBlank_of_mem_before (w : Spelt) (ws : List Spelt) :
    ∀ c ∈ w.before ws, isBlank c = true := by
  rw [before]
  split
  · exact nofun
  · exact Gap.isBlank_of_mem

/-- A lexeme is followed by a blank or by nothing. -/
theorem isBlank_of_mem_head? (w : Spelt) (ws : List Spelt) :
    ∀ c ∈ (w.before ws ++ joined ws).head?, isBlank c = true := by
  cases ws with
  | nil => exact nofun
  | cons v ws =>
    have hgap : ∀ gap : Gap, ∀ c ∈ (gap.text ++ joined (v :: ws)).head?, isBlank c = true := by
      intro gap c hc
      cases gap <;> cases hc <;> rfl
    exact hgap w.gap

theorem joined_head?_ne (ws : List Spelt) : (joined ws).head? ≠ some '\uFEFF' := by
  cases ws with
  | nil => exact nofun
  | cons w ws =>
    obtain ⟨c, cs, hword, -, hmark, -⟩ := w.spelled.begins
    rw [joined, hword]
    exact fun h => hmark (Option.some.inj h)

/-! ## Reading them -/

theorem ends_joined (ws : List Spelt) : Trivia.Ends (joined ws) := by
  cases ws with
  | nil => exact nofun
  | cons w ws =>
    obtain ⟨c, cs, hword, hblank, -, hminus⟩ := w.spelled.begins
    have hbehind := isBlank_of_mem_head? w ws
    rw [joined, hword]
    intro d hd
    cases hd
    refine ⟨hblank, fun hc hcomment => ?_⟩
    -- A minus sign is all of its word, and what stands behind that is no second one.
    rw [hminus hc] at hcomment
    exact absurd (hbehind '-' hcomment) (by decide)

end Spelt

theorem Trivia.read_blanks {gap cs : List Char} (hgap : ∀ c ∈ gap, isBlank c = true)
    (hcs : Trivia.Ends cs) : Trivia.read (gap ++ cs) = ⟨gap.length, .ok ()⟩ := by
  induction gap with
  | nil => exact Trivia.read_of_ends hcs
  | cons c gap ih =>
    rw [List.cons_append, Trivia.read_blank (hgap c List.mem_cons_self),
      ih fun d hd => hgap d (List.mem_cons_of_mem c hd), Scan.after, List.length_cons, Nat.add_comm]

namespace Spelt

/-- Behind blanks, the tokens of spelled lexemes are read. -/
theorem yields_joined (ws : List Spelt) {gap : List Char} (hgap : ∀ c ∈ gap, isBlank c = true)
    (p : Position) :
    ∃ ts eof, tokens (p.after gap) ws = ts ++ [eof] ∧
      Place.Yields ⟨gap ++ joined ws, p⟩ ts (.ok eof) := by
  induction ws generalizing gap p with
  | nil =>
    refine ⟨[], Token.eof (p.after gap), rfl, .ends (q := ⟨[], p.after gap⟩) ?_ ?_⟩
    · exact @Place.readToken_ok gap [] [] p _ (Trivia.read_blanks hgap nofun) rfl
    · rintro _ ⟨⟩
      rfl
  | cons w ws ih =>
    obtain ⟨ts, eof, htokens, hyields⟩ :=
      ih (w.isBlank_of_mem_before ws) ((p.after gap).after w.word)
    have hread := Place.readToken_ok (p := p) (Trivia.read_blanks hgap (ends_joined (w :: ws)))
      (w.spelled.read (w.isBlank_of_mem_head? ws))
    refine ⟨_ :: ts, eof, ?_, .token hread w.spelled.symbol_ne_eof hyields⟩
    rw [tokens, htokens]
    rfl

theorem map_toLexeme_tokens (p : Position) (ws : List Spelt) :
    (tokens p ws).map Token.toLexeme = ws.map (·.lexeme) ++ [{ symbol := .eof }] := by
  induction ws generalizing p with
  | nil => rfl
  | cons w ws ih =>
    rw [tokens, List.map_cons, ih]
    rfl

/-- The span of a token covers what its lexeme is spelled with. -/
theorem map_text_tokens {source : String} {passed : List Char} {p : Position} {ws : List Spelt}
    (h : source.toList = passed ++ joined ws) (hp : p.offset = String.utf8Len passed) :
    (tokens p ws).map (·.span.text source) = ws.map (String.ofList ·.word) ++ [""] := by
  induction ws generalizing passed p with
  | nil =>
    have htext : (Token.eof p).span.text source = String.ofList [] :=
      @Span.text_eq source passed [] [] _ h hp hp
    rw [tokens, List.map_singleton, htext]
    rfl
  | cons w ws ih =>
    have htext : Span.text source ⟨p, p.after w.word⟩ = String.ofList w.word :=
      Span.text_eq h hp (by rw [Position.offset_after, hp])
    have hrest := @ih (passed ++ (w.word ++ w.before ws)) ((p.after w.word).after (w.before ws))
      (by rw [h, joined]; simp only [List.append_assoc])
      (by simp only [Position.offset_after, hp, String.utf8Len_append, Nat.add_assoc])
    rw [tokens, List.map_cons, hrest, htext]
    rfl

/-- Whatever lexemes are spelled, they are the tokens of the text that is joined from them, and each
of them covers the word that it is spelled with. -/
theorem tokenize_joined (ws : List Spelt) :
    tokenize (String.ofList (joined ws)) = .ok (tokens Position.start ws) ∧
      (tokens Position.start ws).map Token.toLexeme = ws.map (·.lexeme) ++ [{ symbol := .eof }] ∧
      (tokens Position.start ws).map (·.span.text (String.ofList (joined ws))) =
        ws.map (String.ofList ·.word) ++ [""] := by
  have htexts := @map_text_tokens (String.ofList (joined ws)) [] Position.start ws
    String.toList_ofList rfl
  refine ⟨?_, map_toLexeme_tokens _ ws, htexts⟩
  obtain ⟨ts, eof, htokens, hyields⟩ := @yields_joined ws [] nofun Position.start
  rw [List.nil_append] at hyields
  rw [tokenize, String.toList_ofList, Place.ofText_eq (joined_head?_ne ws), hyields.ofPlace_eq]
  exact congrArg Except.ok htokens.symm

end Spelt

end LuaSource
