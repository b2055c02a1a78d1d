-- SUMMARY: At places of a source, checked cursors pass their checks and do what cursors do.
import LuaSource.Checked.Cursor
import LuaSource.Proofs.Text.TruePosition

/-!
# Checked cursors at places of a source

A place of a source says what is left to read. A cursor that knows only the offset of the place
finds the same text there, since the offset is where the text can be cut.
-/

namespace LuaSource.Checked

/-! ## Slices -/

theorem dropBytes?_append (before behind : List Char) :
    dropBytes? (before ++ behind) (String.utf8Len before) = some behind := by
  induction before with
  | nil => cases behind <;> rfl
  | cons c cs ih =>
    have hpos : String.utf8Len cs + c.utf8Size ≠ 0 := Nat.ne_of_gt
      (Nat.lt_of_lt_of_le c.utf8Size_pos (Nat.le_add_left _ _))
    rw [List.cons_append, String.utf8Len_cons, dropBytes?.eq_3 _ _ _ hpos,
      if_pos (Nat.le_add_left _ _), Nat.add_sub_cancel, ih]

theorem takeBytes?_append (word behind : List Char) :
    takeBytes? (word ++ behind) (String.utf8Len word) = some word := by
  induction word with
  | nil => cases behind <;> rfl
  | cons c cs ih =>
    have hpos : String.utf8Len cs + c.utf8Size ≠ 0 := Nat.ne_of_gt
      (Nat.lt_of_lt_of_le c.utf8Size_pos (Nat.le_add_left _ _))
    rw [List.cons_append, String.utf8Len_cons, takeBytes?.eq_3 _ _ _ hpos,
      if_pos (Nat.le_add_left _ _), Nat.add_sub_cancel, ih]
    rfl

theorem slice?_append (before word behind : List Char) :
    slice? (before ++ (word ++ behind)) (String.utf8Len before)
      (String.utf8Len before + String.utf8Len word) = some word := by
  rw [slice?, if_pos (Nat.le_add_right _ _), dropBytes?_append, Option.bind_some,
    Nat.add_sub_cancel_left, takeBytes?_append]

/-! ## Cursors -/

namespace Cursor

/-- The cursor that knows of the place of another one only its position. -/
def of (c : LuaSource.Cursor) : Cursor :=
  { source := c.source, position := c.position, buffer := c.buffer }

variable {c : LuaSource.Cursor}

theorem rest?_of (h : c.place.In c.source) : (of c).rest? = some c.place.rest := by
  obtain ⟨before, hsource, hoffset⟩ := h
  show dropBytes? c.source c.place.position.offset = _
  rw [hoffset]
  nth_rewrite 1 [hsource]
  exact dropBytes?_append before c.place.rest

theorem peek?_of (h : c.place.In c.source) : (of c).peek? = some c.peek := by
  rw [peek?, rest?_of h]
  rfl

theorem peekSecond?_of (h : c.place.In c.source) : (of c).peekSecond? = some c.peekSecond := by
  rw [peekSecond?, rest?_of h]
  rfl

/-- What stands behind the first character of a place is found there too. -/
theorem peek?_pass {ch : Char} {cs : List Char} (h : c.place.In c.source)
    (hrest : c.place.rest = ch :: cs) : ((of c).pass ch.utf8Size).peek? = some cs.head? := by
  obtain ⟨before, hsource, hoffset⟩ := h
  have hdrop := dropBytes?_append (before ++ [ch]) cs
  rw [List.append_assoc, List.singleton_append, ← hrest, ← hsource, String.utf8Len_append,
    ← hoffset, String.utf8Len_cons, String.utf8Len_nil, Nat.zero_add] at hdrop
  exact congrArg (Option.map List.head?) hdrop

theorem advance?_of (h : c.place.In c.source) :
    (of c).advance? = some (c.advance.1, of c.advance.2) := by
  rw [advance?, peek?_of h, LuaSource.Cursor.peek, LuaSource.Cursor.advance]
  cases hrest : c.place.rest with
  | nil => rfl
  | cons ch cs =>
    have hbehind := peek?_pass h hrest
    simp only [List.head?_cons, Option.bind_eq_bind, Option.bind_some]
    by_cases hreturn : ch = '\r'
    · subst hreturn
      rw [if_pos rfl, hbehind, if_pos (show isNewline '\r' = true from rfl)]
      by_cases hhead : cs.head? = some '\n'
      · obtain ⟨ds, rfl⟩ := List.head?_eq_some_iff.1 hhead
        rw [Place.skip, hrest]
        rfl
      · have hsize : newlineSize ('\r' :: cs) = 1 := by simp [newlineSize, hhead]
        rw [hsize, Place.skip, hrest, Option.bind_some, if_neg hhead]
        rfl
    · rw [if_neg hreturn]
      by_cases hline : ch = '\n'
      · subst hline
        rw [if_pos rfl, if_pos (show isNewline '\n' = true from rfl), Place.skip, hrest]
        rfl
      · have hnewline : isNewline ch = false := by simp [isNewline, hreturn, hline]
        have hnext : c.place.position.next ch [] = { c.place.position with
            column := c.place.position.column + 1
            offset := c.place.position.offset + ch.utf8Size } := by
          simp [Position.next, hreturn, hline]
        rw [if_neg hline, hnewline, if_neg Bool.false_ne_true, Place.skip, hrest]
        simp only [List.take_succ_cons, List.take_zero, Position.after, hnext]
        rfl

theorem eat?_of (h : c.place.In c.source) (expected : Char) :
    (of c).eat? expected = some ((c.eat expected).1, of (c.eat expected).2) := by
  rw [eat?, peek?_of h, advance?_of h, LuaSource.Cursor.eat]
  by_cases hpeek : c.peek = some expected
  · rw [if_pos hpeek]
    simp [hpeek]
  · rw [if_neg hpeek]
    simp [hpeek]

theorem saveAndAdvance?_of (h : c.place.In c.source) :
    (of c).saveAndAdvance? = some (of c.saveAndAdvance) := by
  rw [saveAndAdvance?, advance?_of h, LuaSource.Cursor.saveAndAdvance]
  cases c.advance with
  | mk ch c' => cases ch <;> rfl

/-- The text since a mark, which the cursor has come from. -/
theorem sliceFrom?_of {mark : Place} (hmark : mark.In c.source) (h : mark.Reaches c.place) :
    (of c).sliceFrom? mark.position = some (c.sliceFrom mark) := by
  obtain ⟨before, hsource, hoffset⟩ := hmark
  obtain ⟨passed, hrest, -, hposition⟩ := h
  have hstop : c.place.position.offset = String.utf8Len before + String.utf8Len passed := by
    rw [hposition, Position.offset_after, hoffset]
  have hslice : c.sliceFrom mark = passed := by
    rw [LuaSource.Cursor.sliceFrom, Place.textUpTo, hrest, List.length_append,
      Nat.add_sub_cancel, List.take_left]
  rw [hslice]
  show slice? c.source mark.position.offset c.place.position.offset = _
  rw [hoffset, hstop, hsource, hrest]
  exact slice?_append before passed c.place.rest

end Cursor

end LuaSource.Checked
