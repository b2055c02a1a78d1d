-- SUMMARY: Positions in a text, the spans between them, and how reading characters moves a position.

/-!
# Positions

A position counts lines and columns from one, in characters, and the offset from
zero, in bytes of UTF-8. `\n`, `\r` and `\r\n` each end one line.
-/

namespace LuaSource

structure Position where
  line : Nat
  column : Nat
  offset : Nat
deriving DecidableEq

namespace Position

/-- Where every text starts. -/
def start : Position := ⟨1, 1, 0⟩

instance : Inhabited Position := ⟨start⟩

/-- Line first, then column, then offset. -/
instance : Ord Position where
  compare p q :=
    (compare p.line q.line).then ((compare p.column q.column).then (compare p.offset q.offset))

def describe (p : Position) : String :=
  s!"line {p.line}, column {p.column}"


-- ---------------------------------------------------------------------------
-- Reading characters
-- ---------------------------------------------------------------------------

/-- The position after the character `c`, which `rest` follows. The `\r` of a `\r\n` takes up a
byte and nothing else: the `\n` ends the line. -/
def next (p : Position) (c : Char) (rest : List Char) : Position :=
  if c = '\n' ∨ (c = '\r' ∧ rest.head? ≠ some '\n') then
    ⟨p.line + 1, 1, p.offset + c.utf8Size⟩
  else if c = '\r' then
    { p with offset := p.offset + c.utf8Size }
  else
    { p with column := p.column + 1, offset := p.offset + c.utf8Size }

/-- The position after a text. -/
def after (p : Position) : List Char → Position
  | [] => p
  | c :: cs => (p.next c cs).after cs

@[simp] theorem after_nil (p : Position) : p.after [] = p := rfl

theorem after_cons (p : Position) (c : Char) (cs : List Char) :
    p.after (c :: cs) = (p.next c cs).after cs := rfl

@[simp] theorem next_offset (p : Position) (c : Char) (cs : List Char) :
    (p.next c cs).offset = p.offset + c.utf8Size := by
  unfold next
  split
  · rfl
  · split <;> rfl

end Position


-- ---------------------------------------------------------------------------
-- Spans
-- ---------------------------------------------------------------------------

/-- The text from `start` up to `stop`, which is no longer part of it. -/
structure Span where
  start : Position
  stop : Position
deriving DecidableEq, Inhabited

namespace Span

def empty (p : Position) : Span := ⟨p, p⟩

/-- From the start of the first span to the end of the last. -/
def between (first last : Span) : Span := ⟨first.start, last.stop⟩

def isEmpty (s : Span) : Bool := s.start.offset == s.stop.offset

@[simp] theorem start_between (a b : Span) : (between a b).start = a.start := rfl

@[simp] theorem stop_between (a b : Span) : (between a b).stop = b.stop := rfl

@[simp] theorem isEmpty_empty (p : Position) : (empty p).isEmpty = true := by
  simp [empty, isEmpty]

end Span

end LuaSource
