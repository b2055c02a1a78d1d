-- SUMMARY: The position at an offset, told from the text before it, and the positions a cursor can have.
import LuaSource.Proofs.Lexer.Calls

/-!
# True positions

Reading a text counts lines, columns and bytes one character at a time. Which position belongs to an
offset can be told without reading, from the text before it: there are as many lines as newlines of
any form, and as many columns as characters since the last of them. A position is true in a source
if it is the one that belongs to its offset, and if the offset is one at which reading can stop.
-/

namespace LuaSource

/-! ## The position at an offset -/

/-- The characters that end within the first `n` bytes of a text. -/
def firstBytes : List Char → Nat → List Char
  | [], _ => []
  | c :: cs, n => if c.utf8Size ≤ n then c :: firstBytes cs (n - c.utf8Size) else []

/-- A text without the mark of byte order that it may begin with. -/
def withoutMark : List Char → List Char
  | [] => []
  | c :: cs => if c = '\uFEFF' then cs else c :: cs

/-- The position at an offset of a source, told from the text before it. -/
def Position.at (source : List Char) (offset : Nat) : Position :=
  let before := unifyNewlines (withoutMark (firstBytes source offset))
  { line := 1 + before.count '\n'
    column := 1 + (before.reverse.takeWhile (· != '\n')).length
    offset }

/-- The position is the one at its offset. The offset is inside the source, between two characters,
and not between those of a `\r\n`. -/
structure Position.TrueIn (source : List Char) (p : Position) : Prop where
  inside : p.offset ≤ String.utf8Len source
  boundary : ∃ before behind, source = before ++ behind ∧ String.utf8Len before = p.offset ∧
    Breaks before behind
  eq_at : p = Position.at source p.offset

theorem firstBytes_append (before behind : List Char) :
    firstBytes (before ++ behind) (String.utf8Len before) = before := by
  induction before with
  | nil =>
    cases behind with
    | nil => rfl
    | cons c cs => exact if_neg (Nat.not_le.2 c.utf8Size_pos)
  | cons c cs ih =>
    rw [List.cons_append, firstBytes, String.utf8Len_cons, if_pos (Nat.le_add_left _ _),
      Nat.add_sub_cancel, ih]

/-- What is left out of a source at its start, before the place where reading starts. -/
theorem Place.exists_lead (source : List Char) :
    ∃ lead, source = lead ++ (Place.ofText source).rest ∧ '\r' ∉ lead ∧
      (Place.ofText source).position = ⟨1, 1, String.utf8Len lead⟩ ∧
      ∀ passed rest, (Place.ofText source).rest = passed ++ rest →
        withoutMark (lead ++ passed) = passed := by
  cases source with
  | nil =>
    refine ⟨[], rfl, List.not_mem_nil, rfl, fun passed rest h => ?_⟩
    rw [(List.append_eq_nil_iff.1 h.symm).1]
    rfl
  | cons c cs =>
    by_cases hc : c = '\uFEFF'
    · subst hc
      exact ⟨['\uFEFF'], rfl, by decide, rfl, fun _ _ _ => rfl⟩
    · have hhead : (c :: cs).head? ≠ some '\uFEFF' := fun h => hc (Option.some.inj h)
      rw [Place.ofText_eq hhead]
      refine ⟨[], rfl, List.not_mem_nil, rfl, fun passed rest h => ?_⟩
      cases passed with
      | nil => rfl
      | cons d passed =>
        obtain ⟨rfl, -⟩ := List.cons.inj h
        exact if_neg hc

/-! ## Counting and reading -/

namespace Position

/-- Line and column behind a character of a text in which each line ends with a `\n`. -/
def count : Nat × Nat → Char → Nat × Nat
  | (line, column), c => if c = '\n' then (line + 1, 1) else (line, column + 1)

theorem foldl_count (us : List Char) :
    us.foldl count (1, 1) =
      (1 + us.count '\n', 1 + (us.reverse.takeWhile (· != '\n')).length) := by
  induction us using List.reverseRecOn with
  | nil => rfl
  | append_singleton us u ih =>
    rw [List.foldl_append, ih, List.foldl_cons, List.foldl_nil, count, List.reverse_append,
      List.count_append]
    by_cases hu : u = '\n'
    · subst hu
      rw [if_pos rfl]
      rfl
    · have htake : ((u :: us.reverse).takeWhile (· != '\n')) =
          u :: us.reverse.takeWhile (· != '\n') := List.takeWhile_cons_of_pos (by simpa using hu)
      rw [if_neg hu, List.reverse_singleton, List.singleton_append, htake, List.length_cons,
        List.count_singleton, beq_false_of_ne hu]
      simp [Nat.add_assoc]

/-- Reading counts the newlines of any form as it counts those that stand for them. -/
theorem line_column_after (p : Position) (cs : List Char) :
    ((p.after cs).line, (p.after cs).column) =
      (unifyNewlines cs).foldl count (p.line, p.column) := by
  induction cs generalizing p with
  | nil => rfl
  | cons c cs ih =>
    rw [after_cons, ih, unifyNewlines]
    by_cases hc : c = '\r'
    · subst hc
      by_cases hhead : cs.head? = some '\n'
      · simp [next, hhead]
      · simp [next, hhead, count]
    · by_cases hn : c = '\n'
      · subst hn
        rfl
      · simp [next, hc, hn, count]

end Position

/-! ## Going on in a text -/

namespace Place

variable {p q r : Place}

/-- The second place comes behind the first in one text, where reading can stop. -/
def Reaches (p q : Place) : Prop :=
  ∃ passed, p.rest = passed ++ q.rest ∧ Breaks passed q.rest ∧ q.position = p.position.after passed

theorem Reaches.refl (p : Place) : p.Reaches p := ⟨[], rfl, .nil _, rfl⟩

theorem Reaches.trans (hpq : p.Reaches q) (hqr : q.Reaches r) : p.Reaches r := by
  obtain ⟨before, hp, hbefore, hq⟩ := hpq
  obtain ⟨behind, hrest, hbehind, hr⟩ := hqr
  rw [hrest] at hp hbefore
  refine ⟨before ++ behind, by rw [hp, List.append_assoc], ?_, ?_⟩
  · cases behind with
    | nil => simpa using hbefore
    | cons c cs => exact hbehind.append (List.cons_ne_nil c cs)
  · rw [hr, hq, Position.after_append_of_breaks hbefore.left]

/-- The places of a source are true, and the text from there on is the one behind their offset. -/
theorem Reaches.trueIn {source : List Char} (h : (ofText source).Reaches p) :
    p.In source ∧ p.position.TrueIn source := by
  obtain ⟨passed, hrest, hbreaks, hposition⟩ := h
  obtain ⟨lead, hsource, hlead, hstart, hmark⟩ := exists_lead source
  have hsource' : source = (lead ++ passed) ++ p.rest := by
    rw [List.append_assoc, ← hrest]
    exact hsource
  have hoffset : p.position.offset = String.utf8Len (lead ++ passed) := by
    rw [hposition, Position.offset_after, hstart, String.utf8Len_append]
  refine ⟨⟨lead ++ passed, hsource', hoffset⟩, ?_, ⟨_, _, hsource', hoffset.symm, ?_⟩, ?_⟩
  · rw [hoffset, hsource', String.utf8Len_append (lead ++ passed)]
    exact Nat.le_add_right _ _
  · cases passed with
    | nil =>
      intro hlast
      rw [List.append_nil] at hlast
      exact absurd (List.mem_of_getLast? hlast) hlead
    | cons c cs => exact hbreaks.append (List.cons_ne_nil c cs)
  · have hbefore : withoutMark (firstBytes source p.position.offset) = passed := by
      rw [hoffset, hsource', firstBytes_append, hmark passed p.rest hrest]
    have hcount := Position.line_column_after (ofText source).position passed
    rw [hstart, Position.foldl_count, ← hstart, ← hposition] at hcount
    obtain ⟨hline, hcolumn⟩ := Prod.mk.inj hcount
    rw [Position.at, hbefore, ← hline, ← hcolumn]

end Place

/-! ## Cursors -/

namespace Cursor

theorem reaches_advance (c : Cursor) : c.place.Reaches c.advance.2.place := by
  obtain ⟨source, ⟨rest, p⟩, buffer⟩ := c
  cases rest with
  | nil => exact .refl _
  | cons ch cs =>
    rw [advance]
    dsimp only
    cases hline : isNewline ch with
    | false =>
      rw [if_neg Bool.false_ne_true]
      exact ⟨[ch], rfl, .single hline cs, rfl⟩
    | true =>
      obtain ⟨newline, rest, hnewline, hsize, hbreaks, -⟩ := exists_newline hline cs
      rw [if_pos rfl, ← hsize, hnewline]
      rw [Place.skip_append]
      exact ⟨newline, rfl, hbreaks, rfl⟩

theorem place_eat (c : Cursor) (expected : Char) :
    (c.eat expected).2 = c.advance.2 ∨ (c.eat expected).2 = c := by
  rw [eat]
  split
  · exact .inl rfl
  · exact .inr rfl

theorem place_saveAndAdvance (c : Cursor) :
    c.saveAndAdvance.place = c.advance.2.place ∧ c.saveAndAdvance.source = c.source := by
  have hsource := c.advance_source
  rw [saveAndAdvance]
  cases hadvance : c.advance with
  | mk ch c' =>
    rw [hadvance] at hsource
    cases ch <;> exact ⟨rfl, hsource⟩

/-- What can be done with a cursor. Marks go by their number, in the order in which they are
taken. -/
inductive Op
  | peek
  | peekSecond
  | advance
  | eat (expected : Char)
  | save (ch : Char)
  | saveAndAdvance
  | takeBuffer
  | clearBuffer
  | mark
  | restore (n : Nat)
  | sliceFrom (n : Nat)

/-- A cursor and the marks that have been taken of it. -/
structure Session where
  cursor : Cursor
  marks : List Place := []

namespace Session

/-- Looking at the text changes nothing. There is no going back to a mark that was never taken. -/
def step (s : Session) : Op → Session
  | .peek | .peekSecond | .sliceFrom _ => s
  | .advance => { s with cursor := s.cursor.advance.2 }
  | .eat expected => { s with cursor := (s.cursor.eat expected).2 }
  | .save ch => { s with cursor := s.cursor.save ch }
  | .saveAndAdvance => { s with cursor := s.cursor.saveAndAdvance }
  | .takeBuffer => { s with cursor := s.cursor.takeBuffer.2 }
  | .clearBuffer => { s with cursor := s.cursor.clearBuffer }
  | .mark => { s with marks := s.marks ++ [s.cursor.mark] }
  | .restore n =>
    match s.marks[n]? with
    | some mark => { s with cursor := s.cursor.restore mark }
    | none => s

def run (s : Session) (ops : List Op) : Session := ops.foldl step s

/-- The cursor and its marks are at places of the source. -/
structure Of (source : List Char) (s : Session) : Prop where
  source_eq : s.cursor.source = source
  place : (Place.ofText source).Reaches s.cursor.place
  marks : ∀ mark ∈ s.marks, (Place.ofText source).Reaches mark

variable {source : List Char} {s : Session}

theorem Of.step (h : s.Of source) (op : Op) : (s.step op).Of source := by
  have hadvance : ({ s with cursor := s.cursor.advance.2 } : Session).Of source :=
    ⟨(advance_source _).trans h.source_eq, h.place.trans (reaches_advance _), h.marks⟩
  cases op with
  | peek | peekSecond | sliceFrom n | save ch | takeBuffer | clearBuffer =>
    exact ⟨h.source_eq, h.place, h.marks⟩
  | advance => exact hadvance
  | eat expected =>
    rw [Session.step]
    rcases place_eat s.cursor expected with heq | heq
    · rw [heq]
      exact hadvance
    · rw [heq]
      exact h
  | saveAndAdvance =>
    obtain ⟨hplace, hsource⟩ := place_saveAndAdvance s.cursor
    exact ⟨hsource.trans h.source_eq, hplace ▸ hadvance.place, h.marks⟩
  | mark =>
    refine ⟨h.source_eq, h.place, fun mark hmark => ?_⟩
    rcases List.mem_append.1 hmark with hmark | hmark
    · exact h.marks mark hmark
    · rw [List.mem_singleton.1 hmark]
      exact h.place
  | restore n =>
    rw [Session.step]
    split
    · next mark hmark => exact ⟨h.source_eq, h.marks mark (List.mem_of_getElem? hmark), h.marks⟩
    · exact h

theorem Of.run (h : s.Of source) (ops : List Op) : (s.run ops).Of source := by
  induction ops generalizing s with
  | nil => exact h
  | cons op ops ih => exact ih (h.step op)

theorem of_ofText (source : List Char) : Session.Of source { cursor := Cursor.ofText source } :=
  ⟨rfl, .refl _, nofun⟩

end Session

end Cursor

end LuaSource
