-- SUMMARY: The tokens that are read from pieces of text.
import LuaSource.Format
import LuaSource.Proofs.Lexeme.Written
import LuaSource.Proofs.Lexer.Excerpt
import LuaSource.Proofs.Numeral.Written

/-!
# Legible pieces

Pieces are legible if each can be written and none of them runs into the text behind it. Then
the tokens that are read from their text are theirs.
-/

namespace LuaSource

namespace Piece

/-- The lexeme that a piece writes, if it is not a blank. -/
def lexeme? : Piece → Option Lexeme
  | symbol s => some { symbol := s }
  | name text => some { symbol := .name, value := text }
  | number x => some { symbol := .number, value := String.ofList (Numeral.write x) }
  | quoted value => some { symbol := .string, value := value }
  | space | newline | indent _ => none

/-- Whether a character right behind a piece would be read with it. -/
def goesOn : Piece → Char → Bool
  | symbol s, c => s.goesOn c
  | name _, c => isNameContinue c
  | number _, c => isNameContinue c || c == '.'
  | _, _ => false

/-- Whether what a piece stands for has a text at all. -/
def Writable : Piece → Prop
  | symbol s => s.isWritten = true
  | name text => IsName text
  | number x => x.Unsigned ∧ x.isNaN = false
  | _ => True

def Legible : List Piece → Prop
  | [] => True
  | p :: ps => p.Writable ∧ (∀ c ∈ (render ps).head?, p.goesOn c = false) ∧ Legible ps

/-- The letters that pieces write. The first is joined to what is before it if there is no
newline between them and `joined` says so. -/
def letters (joined : Bool) : List Piece → List Letter
  | [] => []
  | p :: ps =>
    match p.lexeme? with
    | some l => { l with joined } :: letters true ps
    | none => letters (joined && !p.text.contains '\n') ps

/-! ## Single pieces -/

/-- The text of a lexeme is read as the lexeme, and not as a comment. -/
theorem read_text {p : Piece} {l : Lexeme} (hl : p.lexeme? = some l) (hp : p.Writable)
    {r : List Char} (hr : ∀ c ∈ r.head?, p.goesOn c = false) :
    Lexeme.read (p.text ++ r) = ⟨p.text.length, .ok l⟩ := by
  cases p with
  | symbol s =>
    cases hl
    exact Lexeme.read_symbol hp hr
  | name text =>
    cases hl
    exact Lexeme.read_name hp hr
  | number x =>
    cases hl
    refine Lexeme.read_write hp.1 hp.2 fun c hc => ?_
    obtain ⟨hname, hdot⟩ := Bool.or_eq_false_iff.1 (hr c hc)
    exact ⟨hname, ne_of_beq_false hdot⟩
  | quoted value =>
    cases hl
    exact Lexeme.read_encode value r
  | space => cases hl
  | newline => cases hl
  | indent depth => cases hl

/-- What the text of a lexeme begins with is no blank and no mark of byte order, and a few
characters belong to symbols that can be told. -/
structure StartsWith (p : Piece) (c : Char) : Prop where
  blank : isBlank c = false
  mark : c ≠ '\uFEFF'
  minus : c = '-' → p = .symbol .minus
  hash : c = '#' → p = .symbol .hash
  bracket : c = '[' → p = .symbol .leftBracket
  equals : c = '=' → p = .symbol .assign ∨ p = .symbol .equal

theorem startsWith_of_isNameStart (p : Piece) {c : Char} (h : isNameStart c = true) :
    p.StartsWith c := by
  have hne : ∀ d : Char, isNameStart d = false → c ≠ d := by
    rintro d hd rfl
    rw [h] at hd
    cases hd
  refine ⟨eq_false_of_ne_true fun hblank => ?_, hne _ (by decide +kernel),
    (absurd · (hne _ (by decide))), (absurd · (hne _ (by decide))),
    (absurd · (hne _ (by decide))), (absurd · (hne _ (by decide)))⟩
  simp only [isBlank, Bool.or_eq_true, beq_iff_eq] at hblank
  rcases hblank with ((((rfl | rfl) | rfl) | rfl) | rfl) | rfl <;> exact hne _ (by decide) rfl

theorem startsWith_of_isDigit (p : Piece) {c : Char} (h : c.isDigit = true) : p.StartsWith c := by
  refine ⟨eq_false_of_ne_true fun hblank => ?_, ne_of_isDigit h rfl,
    (absurd · (ne_of_isDigit h rfl)), (absurd · (ne_of_isDigit h rfl)),
    (absurd · (ne_of_isDigit h rfl)), (absurd · (ne_of_isDigit h rfl))⟩
  simp only [isBlank, Bool.or_eq_true, beq_iff_eq] at hblank
  rcases hblank with ((((rfl | rfl) | rfl) | rfl) | rfl) | rfl <;> cases h

theorem startsWith_symbol {s : Symbol} (hs : s.isWritten = true) :
    ∃ c cs, s.spelling.toList = c :: cs ∧ (symbol s).StartsWith c := by
  have hall : ∀ s ∈ Symbol.keywords ++ Symbol.punctuation,
      s.spelling.toList.head?.any (fun c => !isBlank c && c != '\uFEFF' &&
        (c != '-' || s == .minus) && (c != '#' || s == .hash) &&
        (c != '[' || s == .leftBracket) && (c != '=' || s == .assign || s == .equal)) = true := by
    decide
  obtain ⟨c, hc, hstarts⟩ := (Option.any_eq_true _ _).1 (hall s (of_decide_eq_true hs))
  obtain ⟨cs, hcs⟩ := List.head?_eq_some_iff.1 hc
  simp only [Bool.and_eq_true, Bool.not_eq_true', bne_iff_ne, ne_eq, Bool.or_eq_true,
    beq_iff_eq] at hstarts
  obtain ⟨⟨⟨⟨⟨hblank, hmark⟩, hminus⟩, hhash⟩, hbracket⟩, hequals⟩ := hstarts
  refine ⟨c, cs, hcs, hblank, hmark, fun h => ?_, fun h => ?_, fun h => ?_, fun h => ?_⟩
  · rw [hminus.resolve_left fun hne => hne h]
  · rw [hhash.resolve_left fun hne => hne h]
  · rw [hbracket.resolve_left fun hne => hne h]
  · rcases hequals with (hne | hassign) | hequal
    · exact absurd h hne
    · exact .inl (congrArg symbol hassign)
    · exact .inr (congrArg symbol hequal)

theorem startsWith_text {p : Piece} {l : Lexeme} (hl : p.lexeme? = some l) (hp : p.Writable) :
    ∃ c cs, p.text = c :: cs ∧ p.StartsWith c := by
  cases p with
  | symbol s => exact startsWith_symbol hp
  | name text =>
    obtain ⟨⟨c, cs, htext, hc, -⟩, -⟩ := hp
    exact ⟨c, cs, htext, startsWith_of_isNameStart _ hc⟩
  | number x =>
    obtain ⟨d, hd, -⟩ := Numeral.exists_denotes_write hp.1 hp.2
    obtain ⟨c, cs, htext, hc⟩ := Numeral.head_of_denotes hd
    exact ⟨c, cs, htext, startsWith_of_isDigit _ hc⟩
  | quoted value =>
    exact ⟨'"', Quoted.encode value.toList |>.tail, rfl,
      ⟨by decide, by decide, nofun, nofun, nofun, nofun⟩⟩
  | space => cases hl
  | newline => cases hl
  | indent depth => cases hl

theorem symbol_ne_eof {p : Piece} {l : Lexeme} (hl : p.lexeme? = some l) (hp : p.Writable) :
    l.symbol ≠ .eof := by
  rintro heof
  cases p with
  | symbol s =>
    cases hl
    subst heof
    cases hp
  | name text => cases hl; cases heof
  | number x => cases hl; cases heof
  | quoted value => cases hl; cases heof
  | space => cases hl
  | newline => cases hl
  | indent depth => cases hl

/-! ## All pieces -/

theorem blank_of_lexeme?_eq_none {p : Piece} (h : p.lexeme? = none) :
    ∀ c ∈ p.text, c = ' ' ∨ c = '\n' := by
  intro c hc
  cases p with
  | space => exact .inl (List.mem_singleton.1 hc)
  | newline => exact .inr (List.mem_singleton.1 hc)
  | indent depth => exact .inl (List.eq_of_mem_replicate hc)
  | _ => cases h

end Piece

/-! ## Blanks -/

namespace Place

/-- Blanks before a text do not show in its tokens. -/
theorem Yields.blank {c : Char} {cs : List Char} {p : Position} {ts : List Token}
    {r : Except (Located LexError) Token} (hc : c = ' ' ∨ c = '\n')
    (h : Yields ⟨cs, p.next c cs⟩ ts r) : Yields ⟨c :: cs, p⟩ ts r := by
  have hread : readToken ⟨c :: cs, p⟩ = readToken ⟨cs, p.next c cs⟩ := by
    have hblank : isBlank c = true := by rcases hc with rfl | rfl <;> rfl
    have hnext : ∀ ds, p.next c ds = p.next c cs := by
      intro ds
      rcases hc with rfl | rfl <;> rfl
    have hskip : ∀ n, Place.skip ⟨c :: cs, p⟩ (1 + n) = Place.skip ⟨cs, p.next c cs⟩ n := by
      intro n
      rw [Nat.add_comm, skip, skip, List.drop_succ_cons, List.take_succ_cons, Position.after_cons,
        hnext]
    unfold readToken
    dsimp only
    rw [Trivia.read_blank hblank]
    dsimp only [Scan.after]
    rw [hskip]
  cases h with
  | ends h hr => exact .ends (hread.trans h) hr
  | token h ht hq => exact .token (hread.trans h) ht hq

theorem Yields.blanks {word cs : List Char} {p : Position} {ts : List Token}
    {r : Except (Located LexError) Token} (hword : ∀ c ∈ word, c = ' ' ∨ c = '\n')
    (h : Yields ⟨cs, p.after word⟩ ts r) : Yields ⟨word ++ cs, p⟩ ts r := by
  induction word generalizing p with
  | nil => exact h
  | cons c word ih =>
    have hc := hword c List.mem_cons_self
    have hnext : p.next c (word ++ cs) = p.next c word := by
      rcases hc with rfl | rfl <;> rfl
    show Yields ⟨c :: (word ++ cs), p⟩ ts r
    refine .blank hc ?_
    rw [hnext]
    exact ih (fun d hd => hword d (List.mem_cons_of_mem c hd)) h

end Place

/-- Among blanks, newlines are what makes a line end. -/
theorem Position.line_after_blanks {word : List Char} (hword : ∀ c ∈ word, c = ' ' ∨ c = '\n')
    (p : Position) :
    '\n' ∈ word ∧ p.line < (p.after word).line ∨ '\n' ∉ word ∧ (p.after word).line = p.line := by
  induction word generalizing p with
  | nil => exact .inr ⟨List.not_mem_nil, rfl⟩
  | cons c word ih =>
    have hrest := ih (fun d hd => hword d (List.mem_cons_of_mem c hd)) (p.next c word)
    rcases hword c List.mem_cons_self with rfl | rfl
    · have hline : (p.next ' ' word).line = p.line := rfl
      rw [hline] at hrest
      rcases hrest with ⟨hmem, hlt⟩ | ⟨hmem, heq⟩
      · exact .inl ⟨List.mem_cons_of_mem _ hmem, hlt⟩
      · exact .inr ⟨by simp [hmem], heq⟩
    · have hline : (p.next '\n' word).line = p.line + 1 := rfl
      have hle := line_le_after (p.next '\n' word) word
      refine .inl ⟨List.mem_cons_self, ?_⟩
      rw [after_cons]
      omega

namespace Piece

/-- The tokens that pieces write from a position on. -/
def tokens (p : Position) : List Piece → List Token
  | [] => []
  | q :: ps =>
    match q.lexeme? with
    | some l => { l with span := ⟨p, p.after q.text⟩ } :: tokens (p.after q.text) ps
    | none => tokens (p.after q.text) ps

theorem tokens_of_lexeme {q : Piece} {l : Lexeme} (hl : q.lexeme? = some l) (p : Position)
    (ps : List Piece) :
    tokens p (q :: ps) = { l with span := ⟨p, p.after q.text⟩ } :: tokens (p.after q.text) ps := by
  rw [tokens, hl]

theorem tokens_of_blank {q : Piece} (hq : q.lexeme? = none) (p : Position) (ps : List Piece) :
    tokens p (q :: ps) = tokens (p.after q.text) ps := by
  rw [tokens, hq]

/-- The tokens of legible pieces are read from their text. -/
theorem yields_tokens {ps : List Piece} (h : Legible ps) (p : Position) :
    ∃ eof, Place.Yields ⟨render ps, p⟩ (tokens p ps) (.ok eof) := by
  induction ps generalizing p with
  | nil =>
    refine ⟨Token.eof p, .ends rfl fun t ht => ?_⟩
    cases ht
    rfl
  | cons q ps ih =>
    obtain ⟨hq, hbehind, hps⟩ := h
    obtain ⟨eof, hyields⟩ := ih hps (p.after q.text)
    rw [render_cons]
    cases hl : q.lexeme? with
    | none =>
      rw [tokens_of_blank hl]
      exact ⟨eof, hyields.blanks (blank_of_lexeme?_eq_none hl)⟩
    | some l =>
      obtain ⟨c, cs, htext, hstarts⟩ := startsWith_text hl hq
      have hlexeme := read_text hl hq hbehind
      have hends : Trivia.Ends (q.text ++ render ps) := by
        rw [htext]
        intro d hd
        cases hd
        refine ⟨hstarts.blank, fun hminus hcomment => ?_⟩
        obtain rfl := hstarts.minus hminus
        cases htext
        exact absurd rfl (ne_of_beq_false (hbehind _ hcomment))
      have hread : Place.readToken ⟨q.text ++ render ps, p⟩ =
          (.ok { l with span := ⟨p, p.after q.text⟩ }, ⟨render ps, p.after q.text⟩) :=
        @Place.readToken_ok [] q.text (render ps) p l (Trivia.read_of_ends hends) hlexeme
      rw [tokens_of_lexeme hl]
      exact ⟨eof, .token hread (symbol_ne_eof hl hq) hyields⟩

/-- The tokens of pieces have their letters. -/
theorem lettersFrom_tokens (ps : List Piece) {p before : Position} (hp : before.line ≤ p.line) :
    lettersFrom before (tokens p ps) = letters (p.line == before.line) ps := by
  induction ps generalizing p before with
  | nil => rfl
  | cons q ps ih =>
    rw [letters]
    cases hl : q.lexeme? with
    | none =>
      rw [tokens_of_blank hl, ih (Nat.le_trans hp (p.line_le_after q.text))]
      congr 1
      rcases p.line_after_blanks (blank_of_lexeme?_eq_none hl) with ⟨hmem, hlt⟩ | ⟨hmem, heq⟩
      · have hne : ((p.after q.text).line == before.line) = false :=
          beq_false_of_ne (by omega)
        rw [hne, List.contains_iff_mem.2 hmem, Bool.not_true, Bool.and_false]
      · have hnot : q.text.contains '\n' = false := by simpa using hmem
        rw [heq, hnot, Bool.not_false, Bool.and_true]
    | some l =>
      rw [tokens_of_lexeme hl, lettersFrom, ih (Nat.le_refl (p.after q.text).line),
        beq_self_eq_true]
      rfl

/-- The tokens of legible pieces are those of their letters. -/
theorem yields_render {ps : List Piece} (h : Legible ps) {p before : Position}
    (hp : before.line ≤ p.line) :
    ∃ ts eof, Place.Yields ⟨render ps, p⟩ ts (.ok eof) ∧
      lettersFrom before ts = letters (p.line == before.line) ps := by
  obtain ⟨eof, hyields⟩ := yields_tokens h p
  exact ⟨_, eof, hyields, lettersFrom_tokens ps hp⟩

/-! ## Texts of pieces -/

/-- What legible pieces begin with is a blank, or belongs to the first of their letters. -/
theorem head?_render {ps : List Piece} (h : Legible ps) {c : Char} (hc : (render ps).head? = some c)
    (joined : Bool) :
    (c = ' ' ∨ c = '\n') ∨ ∃ (p : Piece) (l : Lexeme), p.lexeme? = some l ∧ p.StartsWith c ∧
      headSymbol (letters joined ps) = l.symbol := by
  induction ps generalizing joined with
  | nil => cases hc
  | cons p ps ih =>
    obtain ⟨hp, -, hps⟩ := h
    rw [render_cons] at hc
    rw [letters]
    cases hl : p.lexeme? with
    | none =>
      have hblank := blank_of_lexeme?_eq_none hl
      cases htext : p.text with
      | nil =>
        rw [htext] at hc
        exact ih hps hc _
      | cons d ds =>
        rw [htext] at hc hblank
        cases hc
        exact .inl (hblank c List.mem_cons_self)
    | some l =>
      obtain ⟨d, ds, htext, hstarts⟩ := startsWith_text hl hp
      rw [htext] at hc
      cases hc
      exact .inr ⟨p, l, hl, hstarts, rfl⟩

/-- A source that is made up of legible pieces has their tokens. -/
theorem ofSource_tokens {ps : List Piece} (h : Legible ps)
    (hhash : headSymbol (letters true ps) ≠ .hash) (skipShebang : Bool) :
    ∃ eof, Tokens.ofSource (String.ofList (render ps)) skipShebang =
      ⟨tokens Position.start ps, .ok eof⟩ := by
  have hmark : (render ps).head? ≠ some '\uFEFF' := by
    intro hhead
    rcases head?_render h hhead true with (hc | hc) | ⟨p, l, -, hstarts, -⟩
    · cases hc
    · cases hc
    · exact hstarts.mark rfl
  have hscript : (render ps).head? ≠ some '#' := by
    intro hhead
    rcases head?_render h hhead true with (hc | hc) | ⟨p, l, hl, hstarts, hsymbol⟩
    · cases hc
    · cases hc
    · obtain rfl := hstarts.hash rfl
      cases hl
      exact hhash hsymbol
  obtain ⟨eof, hyields⟩ := yields_tokens h Position.start
  exact ⟨eof, hyields.ofSource_eq hmark hscript skipShebang⟩

/-- A source that is made up of legible pieces can be read, and has their letters. -/
theorem ofSource_render {ps : List Piece} (h : Legible ps)
    (hhash : headSymbol (letters true ps) ≠ .hash) (skipShebang : Bool) :
    ∃ eof, (Tokens.ofSource (String.ofList (render ps)) skipShebang).ending = .ok eof ∧
      (Tokens.ofSource (String.ofList (render ps)) skipShebang).letters = letters true ps := by
  obtain ⟨eof, heq⟩ := ofSource_tokens h hhash skipShebang
  rw [heq]
  refine ⟨eof, rfl, (lettersFrom_tokens ps (Nat.le_refl _)).trans ?_⟩
  rw [beq_self_eq_true]

end Piece

end LuaSource
