-- SUMMARY: A text that comes behind another one has the same tokens, all moved by the same distance.
import LuaSource.Proofs.Lexer.Stream

/-!
# Shifted texts

Where a text stands behind another one, everything in it is some lines and bytes further on, and
what is on its first line some columns as well. Reading does not depend on positions, so it finds
the same lexemes and moves what it finds.
-/

namespace LuaSource

/-- How far a text is moved. -/
structure Shift where
  lines : Nat
  /-- The columns by which the first line is moved. -/
  columns : Nat
  bytes : Nat

/-- The shift of a text that begins at a position. -/
def Shift.to (p : Position) : Shift := ⟨p.line - 1, p.column - 1, p.offset⟩

def Position.shifted (p : Position) (d : Shift) : Position where
  line := p.line + d.lines
  column := if p.line = 1 then p.column + d.columns else p.column
  offset := p.offset + d.bytes

def Span.shifted (s : Span) (d : Shift) : Span := ⟨s.start.shifted d, s.stop.shifted d⟩

def Token.shifted (t : Token) (d : Shift) : Token := { t with span := t.span.shifted d }

/-- An error that tells no places but its own. -/
def Located.shifted {α : Type} (e : Located α) (d : Shift) : Located α :=
  ⟨e.cause, e.span.shifted d⟩

/-- What reading comes to, at another place. -/
def Shift.result (d : Shift) (r : Except (Located LexError) Token) :
    Except (Located LexError) Token :=
  (r.map (·.shifted d)).mapError (·.shifted d)

def Place.shifted (p : Place) (d : Shift) : Place := ⟨p.rest, p.position.shifted d⟩

/-! ## Positions -/

namespace Position

variable {p : Position} {d : Shift}

theorem shifted_start {q : Position} (hline : 1 ≤ q.line) (hcolumn : 1 ≤ q.column) :
    start.shifted (.to q) = q := by
  obtain ⟨line, column, offset⟩ := q
  simp only [shifted, start, Shift.to, ↓reduceIte, mk.injEq]
  dsimp only at hline hcolumn
  omega

theorem next_shifted (h : 1 ≤ p.line) (c : Char) (cs : List Char) :
    (p.shifted d).next c cs = (p.next c cs).shifted d := by
  have hnext : p.line + 1 ≠ 1 := by omega
  unfold next
  split
  · simp only [shifted, hnext, ↓reduceIte, mk.injEq, true_and]
    omega
  · split
    · simp only [shifted, mk.injEq, true_and]
      omega
    · simp only [shifted, mk.injEq, true_and]
      split <;> omega

theorem after_shifted (h : 1 ≤ p.line) (cs : List Char) :
    (p.shifted d).after cs = (p.after cs).shifted d := by
  induction cs generalizing p with
  | nil => rfl
  | cons c cs ih =>
    rw [after_cons, after_cons, next_shifted h, ih (Nat.le_trans h (line_next_le p c cs))]

end Position

/-! ## Reading -/

namespace Place

variable {p q : Place} {d : Shift} {ts : List Token} {r : Except (Located LexError) Token}

theorem skip_shifted (h : 1 ≤ p.position.line) (n : Nat) :
    (p.shifted d).skip n = (p.skip n).shifted d := by
  rw [skip, skip, shifted, shifted, Position.after_shifted h]

theorem line_le_skip (p : Place) (n : Nat) : p.position.line ≤ (p.skip n).position.line :=
  Position.line_le_after _ _

theorem readToken_shifted (h : 1 ≤ p.position.line) :
    (p.shifted d).readToken = (d.result p.readToken.1, p.readToken.2.shifted d) := by
  have hstart := Nat.le_trans h (p.line_le_skip (Trivia.read p.rest).size)
  have hskip : ∀ n, (p.shifted d).skip n = (p.skip n).shifted d := skip_shifted h
  have hrest : (p.shifted d).rest = p.rest := rfl
  unfold readToken
  simp only [hrest, hskip]
  cases (Trivia.read p.rest).result with
  | error e => rfl
  | ok u =>
    dsimp only
    have hlexeme : ((p.skip (Trivia.read p.rest).size).shifted d).rest =
        (p.skip (Trivia.read p.rest).size).rest := rfl
    rw [hlexeme, skip_shifted hstart]
    cases (Lexeme.read (p.skip (Trivia.read p.rest).size).rest).result with
    | error e => rfl
    | ok l => rfl

theorem Yields.shifted (h : p.Yields ts r) (hline : 1 ≤ p.position.line) :
    (p.shifted d).Yields (ts.map (·.shifted d)) (d.result r) := by
  induction h with
  | @ends p q r hread hr =>
    refine .ends (q := q.shifted d) (by rw [readToken_shifted hline, hread]) ?_
    rintro t ht
    cases r with
    | error e => cases ht
    | ok u =>
      cases ht
      exact hr u rfl
  | @token p q t ts r hread ht hq ih =>
    obtain ⟨blanks, word, -, -, hstart, hstop, hposition, -⟩ := readToken_cut hread ht
    have hle : 1 ≤ q.position.line := by
      rw [hposition, hstop, hstart]
      exact (hline.trans (Position.line_le_after _ _)).trans (Position.line_le_after _ _)
    exact .token (q := q.shifted d) (by rw [readToken_shifted hline, hread]; rfl) ht (ih hle)

end Place

end LuaSource
