-- SUMMARY: Checked lexers give the answers of lexers, call by call and for all tokens of a source.
import LuaSource.Checked.Lexer
import LuaSource.Proofs.Lexer.Places

/-!
# Checked lexers on a source

The cursor of a lexer starts at a place of the source and each call moves it on to another one. No
check fails there, and the end is reached within as many calls as the source has characters.
-/

namespace LuaSource.Checked

variable {source : List Char} {c : LuaSource.Cursor}

namespace Scanner

theorem skipShebang_of (hsource : c.source = source) (h : (Place.ofText source).Reaches c.place) :
    skipShebang (.of c) = some (.ok (), .of { c with place := c.place.skipShebang }) := by
  have hc : Since source c.place c := ⟨hsource, h, .refl _⟩
  have hmark : (Scanning.mark : Scanner Position) (.of c) =
    some (.ok c.place.position, .of c) := rfl
  have hpeek : (Scanning.peek : Scanner (Option Char)) (.of c) = some (.ok c.peek, .of c) :=
    (Agrees.peek c hc).1
  have hskip := (skipLine_agrees c hc).1
  rw [show (LuaSource.Scanner.skipLine : LuaSource.Scanner Unit) c = _ from
    LuaSource.Scanner.skipLine_eq c.source c.place.rest c.place.position c.buffer] at hskip
  rw [skipShebang, bind_of_some hmark, bind_of_some hpeek, Place.skipShebang, Place.isScriptStart,
    LuaSource.Cursor.peek]
  split
  · exact hskip
  · rfl

end Scanner

/-! ## Calls -/

theorem Cursor.ofSource_eq (source : String) (skipShebang : Bool) :
    ofSource source skipShebang = some (.of (Lexer.ofSource source skipShebang).cursor) := by
  cases skipShebang with
  | false => rfl
  | true =>
    rw [ofSource, if_pos rfl]
    exact congrArg (Option.map Prod.snd)
      (Scanner.skipShebang_of (c := LuaSource.Cursor.ofText source.toList) rfl (.refl _))

theorem text?_of {t : Token} (h : t.value.isSome = t.symbol.carriesText) :
    text? t = some t.text := by
  rw [text?, ← h]
  split
  · next hsome =>
    obtain ⟨v, hv⟩ := Option.isSome_iff_exists.1 hsome
    rw [Lexeme.text, hv, Option.getD_some]
  · rfl

namespace Lexer

/-- The lexer is at a place of the source, with a buffer that nothing is left in. -/
structure Of (source : List Char) (l : LuaSource.Lexer) : Prop where
  source_eq : l.cursor.source = source
  place : (Place.ofText source).Reaches l.cursor.place
  clean : LuaSource.Scanner.Clean l.cursor

variable {l : LuaSource.Lexer}

theorem of_ofSource (source : String) (skipShebang : Bool) :
    Of source.toList (LuaSource.Lexer.ofSource source skipShebang) := by
  obtain ⟨hplace, hclean⟩ := LuaSource.Lexer.at_ofSource source skipShebang
  refine ⟨?_, hplace ▸ Place.reaches_ofSource source.toList skipShebang, hclean⟩
  cases skipShebang <;> rfl

theorem Of.next (h : Of source l) :
    next (.of l.cursor) = some (l.next.1, .of l.next.2.cursor) ∧ Of source l.next.2 := by
  obtain ⟨heq, hleft⟩ := Scanner.next_agrees l.cursor ⟨h.source_eq, h.place, .refl _⟩
  obtain ⟨hread, -, hclean⟩ := LuaSource.Lexer.At.next ⟨rfl, h.clean⟩
  rw [Lexer.next, heq]
  rw [LuaSource.Lexer.next] at hread hclean ⊢
  cases hnext : (Scanner.next : LuaSource.Scanner Token) l.cursor with
  | ok t c =>
    rw [hnext] at hleft hread hclean
    have htext := Place.carriesText_readToken (Prod.ext hread.symm rfl)
    refine ⟨?_, hleft.source_eq, h.place.trans hleft.place, hclean⟩
    simp [Scanner.outcome, text?_of htext]
  | error e c =>
    rw [hnext] at hleft hclean
    exact ⟨rfl, hleft.source_eq, h.place.trans hleft.place, hclean⟩

/-- Calls of the lexer pass all checks, behind errors as well. -/
theorem Of.answer (h : Of source l) (n : Nat) : answer (.of l.cursor) n = some (l.answer n) := by
  induction n generalizing l with
  | zero =>
    rw [Lexer.answer, h.next.1]
    rfl
  | succ n ih =>
    rw [Lexer.answer, h.next.1]
    exact ih h.next.2

end Lexer

/-! ## All tokens -/

namespace Tokens

/-- The bound is never met: every token before the end takes a character at least. -/
theorem readFrom_of {l : LuaSource.Lexer} (done : List Token) (h : Lexer.Of source l) {n : Nat}
    (hn : l.cursor.place.rest.length < n) :
    readFrom done (.of l.cursor) n =
      some (LuaSource.Tokens.readFrom done l.cursor.place n) := by
  induction n generalizing done l with
  | zero => exact absurd hn (Nat.not_lt_zero _)
  | succ n ih =>
    obtain ⟨hnext, hof⟩ := h.next
    obtain ⟨hread, hplace, -⟩ := LuaSource.Lexer.At.next ⟨rfl, h.clean⟩
    rw [readFrom, hnext, hread, LuaSource.Tokens.readFrom]
    obtain ⟨r, q, hpair⟩ : ∃ r q, l.cursor.place.readToken = (r, q) := ⟨_, _, rfl⟩
    rw [hpair] at hplace ⊢
    dsimp only at hplace
    cases r with
    | error e => rfl
    | ok t =>
      show (if t.symbol = .eof then _ else _) = some (if t.symbol = .eof then _ else _)
      split
      · rfl
      · next ht =>
        obtain ⟨blanks, word, hrest, hword, -⟩ := Place.readToken_cut hpair ht
        have hpos := List.length_pos_iff.2 hword
        rw [hrest, List.length_append, List.length_append] at hn
        rw [ih (t :: done) hof (by rw [hplace]; omega), hplace]

theorem ofSource_eq (source : String) (skipShebang : Bool) :
    ofSource source skipShebang = some (LuaSource.Tokens.ofSource source skipShebang) := by
  have hof := Lexer.of_ofSource source skipShebang
  have hplace := (LuaSource.Lexer.at_ofSource source skipShebang).1
  have hrest := Cursor.rest?_of (hof.source_eq ▸ hof.place.trueIn.1)
  have htokens := readFrom_of [] hof (Nat.lt_succ_self _)
  rw [ofSource, Cursor.ofSource_eq, Option.bind_eq_bind, Option.bind_some, hrest,
    Option.bind_eq_bind, Option.bind_some, htokens, hplace]
  rfl

end Tokens

theorem tokenize_eq (source : String) : tokenize source = some (LuaSource.tokenize source) := by
  rw [tokenize, Tokens.ofSource_eq]
  rfl

end LuaSource.Checked
