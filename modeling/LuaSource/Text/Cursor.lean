-- SUMMARY: Places in a text, and a cursor over it with a buffer for what is read piece by piece.
import LuaSource.Text.CharClass
import LuaSource.Text.Position

/-!
# Places and cursors

A place is all that reading needs to know: the text that is left to read and the position of its
first character. Reading on means dropping characters and moving the position past them.

A cursor reads a text character by character, a newline of any form as one `\n`. It can
go back to any place it has marked, and cut out the text since.
-/

namespace LuaSource

-- ---------------------------------------------------------------------------
-- Places
-- ---------------------------------------------------------------------------

structure Place where
  rest : List Char
  position : Position
deriving DecidableEq

namespace Place

/-- Where reading a text starts. A byte-order mark counts for the offset and not for the column. -/
def ofText : List Char → Place
  | [] => ⟨[], Position.start⟩
  | c :: cs =>
    if c = '\uFEFF' then ⟨cs, { Position.start with offset := c.utf8Size }⟩
    else ⟨c :: cs, Position.start⟩

/-- The place `n` characters on. -/
def skip (p : Place) (n : Nat) : Place :=
  ⟨p.rest.drop n, p.position.after (p.rest.take n)⟩

/-- The text between two places of one text. -/
def textUpTo (p q : Place) : List Char :=
  p.rest.take (p.rest.length - q.rest.length)

@[simp] theorem skip_rest (p : Place) (n : Nat) : (p.skip n).rest = p.rest.drop n := rfl

@[simp] theorem skip_zero (p : Place) : p.skip 0 = p := by
  simp [skip]

end Place


-- ---------------------------------------------------------------------------
-- Cursors
-- ---------------------------------------------------------------------------

structure Cursor where
  source : List Char
  place : Place
  buffer : String := ""
deriving DecidableEq

namespace Cursor

def ofText (source : List Char) : Cursor :=
  { source, place := Place.ofText source }

def position (c : Cursor) : Position := c.place.position

def peek (c : Cursor) : Option Char := c.place.rest.head?

/-- The character after the one that `peek` shows. -/
def peekSecond (c : Cursor) : Option Char := c.place.rest[1]?


-- ---------------------------------------------------------------------------
-- Reading
-- ---------------------------------------------------------------------------

/-- Read one character, or one newline whatever its form. -/
def advance (c : Cursor) : Option Char × Cursor :=
  match c.place.rest with
  | [] => (none, c)
  | ch :: rest =>
    if isNewline ch then
      (some '\n', { c with place := c.place.skip (newlineSize (ch :: rest)) })
    else
      (some ch, { c with place := c.place.skip 1 })

/-- Read the next character if it is the expected one. -/
def eat (c : Cursor) (expected : Char) : Bool × Cursor :=
  if c.peek = some expected then (true, c.advance.2) else (false, c)

@[simp] theorem advance_source (c : Cursor) : c.advance.2.source = c.source := by
  unfold advance
  split
  · rfl
  · split <;> rfl


-- ---------------------------------------------------------------------------
-- The buffer
-- ---------------------------------------------------------------------------

def save (c : Cursor) (ch : Char) : Cursor :=
  { c with buffer := c.buffer.push ch }

def saveAndAdvance (c : Cursor) : Cursor :=
  match c.advance with
  | (some ch, c) => c.save ch
  | (none, c) => c

/-- The text in the buffer, which is empty afterwards. -/
def takeBuffer (c : Cursor) : String × Cursor :=
  (c.buffer, { c with buffer := "" })

def clearBuffer (c : Cursor) : Cursor := { c with buffer := "" }


-- ---------------------------------------------------------------------------
-- Going back, and cutting out
-- ---------------------------------------------------------------------------

def mark (c : Cursor) : Place := c.place

/-- Go back to a place that this cursor has marked. The buffer stays as it is. -/
def restore (c : Cursor) (mark : Place) : Cursor := { c with place := mark }

/-- The text from a mark up to here. -/
def sliceFrom (c : Cursor) (mark : Place) : List Char := mark.textUpTo c.place

/-- The text from the very first byte up to here, byte-order mark included. -/
def sliceFromStart (c : Cursor) : List Char :=
  c.source.take (c.source.length - c.place.rest.length)

@[simp] theorem restore_mark (c : Cursor) : c.restore c.mark = c := rfl

end Cursor

end LuaSource
