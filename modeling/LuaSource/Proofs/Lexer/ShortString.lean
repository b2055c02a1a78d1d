-- SUMMARY: Short strings are read as what their items stand for, and all else as errors.
import LuaSource.Proofs.Lexeme.Items
import LuaSource.Proofs.Lexer.Calls

/-!
# Short strings in a source

Behind a quote, the lexer answers with a string if items and another quote follow, and with the
error at the first place where no item begins if not. Every text has a string that is read as it.
-/

namespace LuaSource

open Quoted

variable {quote : Char} {text rest value behind stop : List Char} {e : LexError}

namespace Quoted

/-- The characters that can stand around a short string. -/
def IsQuote (c : Char) : Prop := c = '"' ∨ c = '\''

theorem IsQuote.backslash_ne (h : IsQuote quote) : '\\' ≠ quote := by
  rcases h with rfl | rfl <;> decide

theorem IsQuote.isNewline (h : IsQuote quote) : isNewline quote = false := by
  rcases h with rfl | rfl <;> rfl

theorem IsQuote.ends (h : IsQuote quote) (cs : List Char) : Trivia.Ends (quote :: cs) := by
  rintro c ⟨⟩
  rcases h with rfl | rfl <;> exact ⟨rfl, nofun⟩

/-- A short string with its quotes. -/
def literal (quote : Char) (text : List Char) : List Char := quote :: (text ++ [quote])

theorem literal_append (quote : Char) (text rest : List Char) :
    literal quote text ++ rest = quote :: (text ++ quote :: rest) := by
  rw [literal, List.cons_append, List.append_assoc, List.singleton_append]

end Quoted

namespace Lexeme

theorem read_literal (hquote : IsQuote quote) (h : Items quote (quote :: rest) text value) :
    read (literal quote text ++ rest) =
      ⟨(literal quote text).length,
        .ok { symbol := .string, value := String.ofList value }⟩ := by
  rw [literal_append, read_quoted hquote, readQuoted, Quoted.read,
    h.readBody hquote.backslash_ne, readBody, if_pos rfl]
  simp [Scan.map, Except.map, literal]

theorem read_fault (hquote : IsQuote quote) (h : Items quote (stop ++ behind) text value)
    (hfault : Fault (quote :: text) behind stop e) :
    read (quote :: (text ++ stop) ++ behind) = ⟨(quote :: (text ++ stop)).length, .error e⟩ := by
  have hraw : (text.reverse ++ [quote]).reverse = quote :: text := by simp
  rw [← hraw] at hfault
  rw [List.cons_append, List.append_assoc, read_quoted hquote, readQuoted, Quoted.read,
    h.readBody hquote.backslash_ne, hfault.readBody hquote.backslash_ne hquote.isNewline]
  simp [Scan.map, Except.map]
  omega

end Lexeme

/-- What a call of the lexer makes of a short string, at whatever position it begins. Items between two
quotes are one string, whose value is what they stand for. If the text behind a quote does not begin
with items and another quote, then it begins with items and a fault, and the error is the one of
the fault, where the fault stops the reading. What is written for a text is read as it. -/
theorem Lexer.next_shortString {quote : Char} (hquote : IsQuote quote) (p : Position) :
    (∀ text value rest, Items quote (quote :: rest) text value →
      ∀ l : Lexer, l.At ⟨literal quote text ++ rest, p⟩ →
        l.next.1 = .ok { symbol := .string, value := String.ofList value,
                         span := ⟨p, p.after (literal quote text)⟩ } ∧
        l.next.2.At ⟨rest, p.after (literal quote text)⟩) ∧
    (∀ cs, (¬ ∃ text value rest, quote :: cs = literal quote text ++ rest ∧
        Items quote (quote :: rest) text value) →
      ∃ text value stop behind e, cs = text ++ (stop ++ behind) ∧
        Items quote (stop ++ behind) text value ∧ Fault (quote :: text) behind stop e) ∧
    (∀ text value stop behind e, Items quote (stop ++ behind) text value →
      Fault (quote :: text) behind stop e →
      ∀ l : Lexer, l.At ⟨quote :: (text ++ (stop ++ behind)), p⟩ →
        l.next.1 = .error ⟨e, Span.empty (p.after (quote :: (text ++ stop)))⟩ ∧
        l.next.2.At ⟨behind, p.after (quote :: (text ++ stop))⟩) ∧
    (∀ (value : String) (rest : List Char) (l : Lexer), l.At ⟨encode value.toList ++ rest, p⟩ →
      l.next.1 = .ok { symbol := .string, value := value,
                       span := ⟨p, p.after (encode value.toList)⟩ } ∧
      l.next.2.At ⟨rest, p.after (encode value.toList)⟩) := by
  refine ⟨fun text value rest h l hl => ?_, fun cs h => ?_,
    fun text value stop behind e h hfault l hl => ?_, fun value rest l hl => ?_⟩
  · have hends : Trivia.Ends (literal quote text ++ rest) := hquote.ends _
    exact hl.next_lexeme hends (Lexeme.read_literal hquote h)
  · obtain ⟨text, value, rest, rfl, hitems, hend | hfault⟩ := exists_items quote cs
    · obtain ⟨rest, rfl⟩ := List.head?_eq_some_iff.1 hend
      exact absurd ⟨text, value, rest, (literal_append quote text rest).symm, hitems⟩ h
    · obtain ⟨stop, behind, e, rfl, hstop⟩ := hfault (quote :: text)
      exact ⟨text, value, stop, behind, e, rfl, hitems, hstop⟩
  · rw [← List.append_assoc] at hl
    exact @At.next_error (quote :: (text ++ stop)) behind p l e hl (hquote.ends _)
      (Lexeme.read_fault hquote h hfault)
  · have hends : Trivia.Ends (encode value.toList ++ rest) := IsQuote.ends (.inl rfl) _
    exact hl.next_lexeme hends (Lexeme.read_encode value rest)

theorem Lexer.next_shortString_escapes :
    (ofText "\"\\97\\x62\\z\"!").next.1 =
      .ok { symbol := .string, value := "abz",
            span := ⟨Position.start, Position.start.after "\"\\97\\x62\\z\"".toList⟩ } ∧
    (ofText "\"a\\256\"").next.1 =
      .error ⟨.escapeTooLarge "\\256", Span.empty (Position.start.after "\"a\\256".toList)⟩ ∧
    (∃ text value stop behind e, ['a'] = text ++ (stop ++ behind) ∧
      Items '"' (stop ++ behind) text value ∧ Fault ('"' :: text) behind stop e) ∧
    (ofText "\"\\a1\"").next.1 =
      .ok { symbol := .string, value := "\x071",
            span := ⟨Position.start, Position.start.after "\"\\a1\"".toList⟩ } := by
  have hdecimal : DigitRun Char.isDigit 3 ['\\', 'x', '6', '2', '\\', 'z', '"', '!'] ['9', '7'] :=
    ⟨List.all_eq_true.1 rfl, by decide, fun _ c hc => by cases hc; rfl⟩
  have hitems : Items '"' ['"', '!'] ['\\', '9', '7', '\\', 'x', '6', '2', '\\', 'z']
      ['a', 'b', 'z'] :=
    @Items.cons '"' _ ['\\', '9', '7'] _ _ 'a' (.decimal hdecimal (List.cons_ne_nil _ _) (by decide))
      (@Items.cons '"' _ ['\\', 'x', '6', '2'] _ _ 'b' (.hexadecimal rfl rfl)
        (@Items.cons '"' _ ['\\', 'z'] [] _ 'z' (.other (by decide) rfl (by decide) rfl) .nil))
  have hraw : ∀ rest, Items '"' rest ['a'] ['a'] := fun rest =>
    @Items.cons '"' rest ['a'] [] _ 'a' (.raw (by decide) (by decide) rfl) .nil
  have hlarge : DigitRun Char.isDigit 3 ['"'] ['2', '5', '6'] :=
    ⟨List.all_eq_true.1 rfl, by decide, fun h => absurd h (by decide)⟩
  obtain ⟨hliteral, hexists, herror, hwritten⟩ :=
    @next_shortString '"' (.inl rfl) Position.start
  refine ⟨(hliteral _ _ ['!'] hitems _ (at_ofSource "\"\\97\\x62\\z\"!" false)).1,
    (herror ['a'] ['a'] _ _ _ (hraw _) (.tooLarge hlarge (by decide)) _
      (at_ofSource "\"a\\256\"" false)).1, hexists _ ?_,
    (hwritten "\x071" [] _ (at_ofSource "\"\\a1\"" false)).1⟩
  -- There is no quote but the first one.
  rintro ⟨text, value, rest, htext, -⟩
  rw [literal_append] at htext
  have hmem : '"' ∈ ['a'] := by
    rw [(List.cons.inj htext).2]
    exact List.mem_append_right text List.mem_cons_self
  revert hmem
  decide

end LuaSource
