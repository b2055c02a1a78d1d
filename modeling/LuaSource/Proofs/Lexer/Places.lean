-- SUMMARY: Tokens and errors of a source start and end at true positions.
import LuaSource.Proofs.Checked.Scanner

/-!
# Places where tokens are read

Scanning goes on from a place to places behind it in the same source. So every position that a
lexer hands out is true, in errors as well as in tokens.
-/

namespace LuaSource

variable {source : List Char} {p q : Place}

/-- Both ends of the span are true positions. -/
def Span.TrueIn (source : List Char) (s : Span) : Prop :=
  s.start.TrueIn source ∧ s.stop.TrueIn source

/-- The span of what is read, which is a token or an error. -/
def spanOf : Except (Located LexError) Token → Span
  | .ok t => t.span
  | .error e => e.span

namespace Place

theorem Reaches.skip_of_breaks {passed rest : List Char} (h : p.rest = passed ++ rest)
    (hbreaks : Breaks passed rest) : p.Reaches ⟨rest, p.position.after passed⟩ :=
  ⟨passed, h, hbreaks, rfl⟩

theorem reaches_skipShebang (p : Place) : p.Reaches p.skipShebang := by
  rw [skipShebang]
  split
  · obtain ⟨line, rest, hrest, hline, hall, -⟩ := exists_takeWhile (!isNewline ·) p.rest
    have hskip := skip_append line rest p.position
    rw [hline]
    rw [← hrest] at hskip
    rw [hskip]
    exact .skip_of_breaks hrest (.of_all (fun c hc => by simpa using hall c hc) rest)
  · exact .refl p

theorem reaches_ofSource (source : List Char) (skipShebang : Bool) :
    (ofText source).Reaches (ofSource source skipShebang) := by
  cases skipShebang with
  | false => exact .refl _
  | true => exact reaches_skipShebang _

/-- Reading goes on behind what is read. -/
theorem Reaches.readToken (h : (ofText source).Reaches p) : p.Reaches p.readToken.2 := by
  obtain ⟨b, -, hnext⟩ := @Scanner.next_answers ⟨source, p, ""⟩ (.inl rfl)
  have hleft := (Checked.Scanner.next_agrees ⟨source, p, ""⟩ ⟨rfl, h, .refl p⟩).2.place
  rw [hnext] at hleft
  cases hread : p.readToken.1 with
  | ok t => simpa [hread, Checked.Scanner.cursorOf] using hleft
  | error e => simpa [hread, Checked.Scanner.cursorOf] using hleft

theorem spanOf_readToken (p : Place) :
    (spanOf p.readToken.1).stop = p.readToken.2.position ∧
      ∀ e, p.readToken.1 = .error e → e.span = Span.empty p.readToken.2.position := by
  unfold Place.readToken
  dsimp only
  split
  · exact ⟨rfl, by rintro _ ⟨⟩; rfl⟩
  · split
    · exact ⟨rfl, by rintro _ ⟨⟩; rfl⟩
    · exact ⟨rfl, nofun⟩

/-- A token that is read has a text of its own if and only if its symbol carries one. -/
theorem carriesText_readToken {t : Token} (h : p.readToken = (.ok t, q)) :
    t.value.isSome = t.symbol.carriesText := by
  obtain ⟨_, _, _, -, -, hlexeme, -⟩ := readToken_eq_ok h
  exact Lexeme.carriesText_read hlexeme

/-- What is read at a place of a source has a true span. -/
theorem Reaches.trueIn_readToken (h : (ofText source).Reaches p) :
    (spanOf p.readToken.1).TrueIn source := by
  obtain ⟨hstop, herror⟩ := p.spanOf_readToken
  have hend := (h.trans h.readToken).trueIn.2
  refine ⟨?_, hstop ▸ hend⟩
  cases hread : p.readToken.1 with
  | error e =>
    rw [spanOf, herror e hread]
    exact hend
  | ok t =>
    obtain ⟨blanks, rest, -, hrest, -, -, hstart, -, hends⟩ :=
      readToken_eq_ok (Prod.ext hread rfl : p.readToken = (.ok t, p.readToken.2))
    have hhead : rest.head? ≠ some '\n' := fun hhead => absurd (hends '\n' hhead).1 (by decide)
    rw [spanOf, hstart]
    exact (h.trans (.skip_of_breaks hrest (.of_head hhead))).trueIn.2

/-- The tokens that are read from a place of a source on, and what they end with, have true
spans. -/
theorem Yields.trueIn {ts : List Token} {r : Except (Located LexError) Token} (h : p.Yields ts r)
    (hp : (ofText source).Reaches p) :
    (∀ t ∈ ts, t.span.TrueIn source) ∧ (spanOf r).TrueIn source := by
  induction h with
  | ends hread =>
    have hspan := hp.trueIn_readToken
    rw [hread] at hspan
    exact ⟨nofun, hspan⟩
  | token hread _ _ ih =>
    have hspan := hp.trueIn_readToken
    have hnext := hp.trans hp.readToken
    rw [hread] at hspan hnext
    obtain ⟨hts, hr⟩ := ih hnext
    exact ⟨List.forall_mem_cons.2 ⟨hspan, hts⟩, hr⟩

end Place

/-- What a call answers has a true span, whatever came before. -/
theorem Lexer.At.trueIn_answer {l : Lexer} (h : l.At p) (hp : (Place.ofText source).Reaches p)
    (n : Nat) : (spanOf (l.answer n)).TrueIn source := by
  induction n generalizing l p with
  | zero =>
    rw [answer_zero, h.next.1]
    exact hp.trueIn_readToken
  | succ n ih => exact ih h.next.2 (hp.trans hp.readToken)

end LuaSource
