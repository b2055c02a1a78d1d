-- SUMMARY: Sources as words of marks, which tell where their tokens stand.
import LuaSource.Proofs.Grammar.Rules

/-!
# Marks

A letter does not tell where its token stands. A mark is a letter with the span of its token and
the place where the token behind it starts, which is all that the span of a node can depend on.
A window that moves over tokens takes a word of marks.
-/

namespace LuaSource

/-- A token as a letter, with the place where the next token starts. -/
structure Mark extends Token, Letter where
  next : Position

/-- The mark of a token, if the token before it ends at `p` and the one behind it starts at
`next`. -/
def Token.mark (p next : Position) (t : Token) : Mark :=
  { t with joined := t.span.start.line == p.line, next }

@[simp] theorem Token.toToken_mark (p next : Position) (t : Token) :
    (t.mark p next).toToken = t := rfl

@[simp] theorem Token.toLetter_mark (p next : Position) (t : Token) :
    (t.mark p next).toLetter = t.letter p := rfl

/-- The marks of tokens, if the token before them ends at `p` and the one behind them starts at
`last`. -/
def marksFrom (p last : Position) : List Token → List Mark
  | [] => []
  | t :: ts => t.mark p ((ts.head?.map (·.span.start)).getD last) :: marksFrom t.span.stop last ts

theorem map_toLetter_marksFrom (p last : Position) (ts : List Token) :
    (marksFrom p last ts).map Mark.toLetter = lettersFrom p ts := by
  induction ts generalizing p with
  | nil => rfl
  | cons t ts ih => rw [marksFrom, List.map_cons, ih, Token.toLetter_mark, lettersFrom]

theorem map_toToken_marksFrom (p last : Position) (ts : List Token) :
    (marksFrom p last ts).map Mark.toToken = ts := by
  induction ts generalizing p with
  | nil => rfl
  | cons t ts ih => rw [marksFrom, List.map_cons, ih, Token.toToken_mark]

/-- A word takes up a span: its first mark starts where the span does, and its last mark ends where
the span does. -/
def Fills (u : List Mark) (span : Span) : Prop :=
  (∃ c ∈ u.head?, c.span.start = span.start) ∧ ∃ c ∈ u.getLast?, c.span.stop = span.stop

theorem Fills.ne_nil {u : List Mark} {span : Span} (h : Fills u span) : u ≠ [] := by
  rintro rfl
  obtain ⟨⟨c, hc, -⟩, -⟩ := h
  cases hc

theorem Fills.append {u x v : List Mark} {a b : Span} (hu : Fills u a) (hv : Fills v b) :
    Fills (u ++ (x ++ v)) (Span.between a b) := by
  obtain ⟨c, hc, hstart⟩ := hu.1
  obtain ⟨d, hd, hstop⟩ := hv.2
  refine ⟨⟨c, ?_, hstart⟩, d, ?_, hstop⟩
  · rw [List.head?_append, Option.mem_def.1 hc]
    rfl
  · rw [List.getLast?_append, List.getLast?_append, Option.mem_def.1 hd]
    rfl

namespace Window

/-! ## Moving on -/

def marks (w : Window) : List Mark := marksFrom w.before w.endToken.span.start w.ahead

/-- The mark of the current token. -/
def mark (w : Window) : Mark := w.current.mark w.before w.following.span.start

@[simp] theorem toLetter_mark (w : Window) : w.mark.toLetter = w.current.letter w.before := rfl

@[simp] theorem symbol_mark (w : Window) : w.mark.symbol = w.current.symbol := rfl

@[simp] theorem span_mark (w : Window) : w.mark.span = w.current.span := rfl

theorem marks_of_ahead_eq {w : Window} {ts : List Token} (h : w.ahead = w.current :: ts) :
    w.marks = w.mark :: marksFrom w.current.span.stop w.endToken.span.start ts := by
  have hnext : (ts.head?.map (·.span.start)).getD w.endToken.span.start =
      w.following.span.start := by
    rw [following, h]
    cases ts <;> rfl
  rw [marks, h, marksFrom, hnext]
  rfl

/-- The window `w'` comes behind the word `u` in `w`. -/
structure Takes (w : Window) (u : List Mark) (w' : Window) : Prop where
  marks : w.marks = u ++ w'.marks
  before : w'.before = (u.getLast?.map (·.span.stop)).getD w.before
  proper : w'.Proper

variable {w w' w'' : Window} {u v : List Mark}

theorem Takes.refl (hw : w.Proper) : w.Takes [] w := ⟨rfl, rfl, hw⟩

theorem Takes.trans (h : w.Takes u w') (h' : w'.Takes v w'') : w.Takes (u ++ v) w'' where
  marks := by rw [h.marks, h'.marks, List.append_assoc]
  before := by
    rw [h'.before, h.before, List.getLast?_append]
    cases v.getLast? <;> rfl
  proper := h'.proper

/-- What is taken begins with the current token. -/
theorem Takes.head (h : w.Takes u w') : ∀ c ∈ u.head?, c.span.start = w.current.span.start := by
  intro c hc
  obtain ⟨v, rfl⟩ := List.head?_eq_some_iff.1 hc
  have hmarks := h.marks
  cases hahead : w.ahead with
  | nil =>
    rw [Window.marks, hahead] at hmarks
    cases hmarks
  | cons t ts =>
    have ht : w.current = t := by
      rw [current, hahead]
      rfl
    rw [marks_of_ahead_eq (by rw [hahead, ht])] at hmarks
    obtain ⟨rfl, -⟩ := List.cons.inj hmarks
    rfl

/-- Taking the current token, unless it is the end of the source. -/
theorem consume_takes {t : Token} (hw : w.Proper) (hs : w.current.symbol ≠ .eof)
    (h : w.consume = .ok (t, w')) :
    t = w.current ∧ w.Takes [w.mark] w' ∧ w'.current.span.start = w.mark.next := by
  have hnext := current_of_consume h
  unfold consume at h
  split at h
  · cases h
  · cases h
    refine ⟨rfl, ⟨marks_of_ahead_eq (hw.ahead_eq hs), rfl, ?_, hw.ending⟩, by rw [hnext]; rfl⟩
    intro t ht
    exact hw.ahead t (List.mem_of_mem_tail ht)

/-! ## Words of a language -/

/-- The tokens between two windows make up a word of `L`. -/
def Over (w : Window) (L : Language Mark) (w' : Window) : Prop := ∃ u ∈ L, w.Takes u w'

variable {L M : Language Mark} {span : Span}

theorem Over.refl (hw : w.Proper) : w.Over 1 w := ⟨[], Language.nil_mem_one, .refl hw⟩

theorem Over.proper (h : w.Over L w') : w'.Proper := by
  obtain ⟨u, -, h⟩ := h
  exact h.proper

theorem Over.mul (h : w.Over L w') (h' : w'.Over M w'') : w.Over (L * M) w'' := by
  obtain ⟨u, hu, h⟩ := h
  obtain ⟨v, hv, h'⟩ := h'
  exact ⟨u ++ v, Language.append_mem_mul hu hv, h.trans h'⟩

theorem Over.mono (hLM : L ≤ M) (h : w.Over L w') : w.Over M w' := by
  obtain ⟨u, hu, h⟩ := h
  exact ⟨u, hLM hu, h⟩

/-- The span of what is taken reaches from the current token to the last one taken. -/
theorem Over.span_eq (h : w.Over L w') (hL : ∀ u ∈ L, Fills u span) :
    span.start = w.current.span.start ∧ span.stop = w'.before := by
  obtain ⟨u, hu, h⟩ := h
  obtain ⟨⟨c, hc, hstart⟩, d, hd, hstop⟩ := hL u hu
  refine ⟨hstart.symm.trans (h.head c hc), ?_⟩
  rw [h.before, Option.mem_def.1 hd]
  exact hstop.symm

end Window

end LuaSource
