-- SUMMARY: A cursor that knows its place by the offset alone, and checks every slice of its source.
import LuaSource.Text.Cursor

/-!
# Checked cursors

A cursor that keeps an offset has to cut the source there for every character that it looks at. A
text can be cut at an offset if that is inside it and between two characters. Where a check fails
there is no result at all.
-/

namespace LuaSource.Checked

-- ---------------------------------------------------------------------------
-- Slices
-- ---------------------------------------------------------------------------

/-- The text behind the first `n` bytes, if it has so many and the last of them ends a character. -/
def dropBytes? : List Char → Nat → Option (List Char)
  | cs, 0 => some cs
  | [], _ + 1 => none
  | c :: cs, n => if c.utf8Size ≤ n then dropBytes? cs (n - c.utf8Size) else none

/-- The first `n` bytes of a text, if it has so many and the last of them ends a character. -/
def takeBytes? : List Char → Nat → Option (List Char)
  | _, 0 => some []
  | [], _ + 1 => none
  | c :: cs, n =>
    if c.utf8Size ≤ n then (takeBytes? cs (n - c.utf8Size)).map (c :: ·) else none

/-- The text between two offsets, if they are in order and the text can be cut at both. -/
def slice? (text : List Char) (start stop : Nat) : Option (List Char) :=
  if start ≤ stop then (dropBytes? text start).bind (takeBytes? · (stop - start)) else none


-- ---------------------------------------------------------------------------
-- Cursors
-- ---------------------------------------------------------------------------

structure Cursor where
  source : List Char
  position : Position
  buffer : String := ""

namespace Cursor

def ofText (source : List Char) : Cursor :=
  { source, position := (Place.ofText source).position }

/-- The text from the cursor on. -/
def rest? (c : Cursor) : Option (List Char) := dropBytes? c.source c.position.offset

def peek? (c : Cursor) : Option (Option Char) := c.rest?.map List.head?

/-- The character after the one that `peek?` shows. -/
def peekSecond? (c : Cursor) : Option (Option Char) := c.rest?.map (·[1]?)

/-- Go a number of bytes on without counting lines or columns. -/
def pass (c : Cursor) (bytes : Nat) : Cursor :=
  { c with position := { c.position with offset := c.position.offset + bytes } }

def newLine (c : Cursor) : Cursor :=
  { c with position := { c.position with line := c.position.line + 1, column := 1 } }

def newColumn (c : Cursor) : Cursor :=
  { c with position := { c.position with column := c.position.column + 1 } }

/-- Read one character, or one newline whatever its form. -/
def advance? (c : Cursor) : Option (Option Char × Cursor) := do
  match ← c.peek? with
  | none => return (none, c)
  | some ch =>
    let c := c.pass ch.utf8Size
    if ch = '\r' then
      let c := if (← c.peek?) = some '\n' then c.pass 1 else c
      return (some '\n', c.newLine)
    else if ch = '\n' then return (some '\n', c.newLine)
    else return (some ch, c.newColumn)

/-- Read the next character if it is the expected one. -/
def eat? (c : Cursor) (expected : Char) : Option (Bool × Cursor) := do
  if (← c.peek?) = some expected then return (true, (← c.advance?).2) else return (false, c)

def save (c : Cursor) (ch : Char) : Cursor :=
  { c with buffer := c.buffer.push ch }

def saveAndAdvance? (c : Cursor) : Option Cursor := do
  match ← c.advance? with
  | (some ch, c) => return c.save ch
  | (none, c) => return c

/-- The text from a mark up to the cursor. -/
def sliceFrom? (c : Cursor) (mark : Position) : Option (List Char) :=
  slice? c.source mark.offset c.position.offset

end Cursor

end LuaSource.Checked
