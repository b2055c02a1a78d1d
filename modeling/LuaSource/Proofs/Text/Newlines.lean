-- SUMMARY: Newlines in their three forms, and texts in which all of them are given one form.
import LuaSource.Proofs.Scanner.Bracket

/-!
# Newlines in texts

Where a newline ends depends on what follows it, since `\r` and `\n` behind one another are one
newline and not two.
-/

namespace LuaSource

/-- A newline before the text `rest`. -/
inductive NewlineForm (rest : List Char) : List Char → Prop
  | feed : NewlineForm rest ['\n']
  | both : NewlineForm rest ['\r', '\n']
  | alone (h : rest.head? ≠ some '\n') : NewlineForm rest ['\r']

/-- The second text is the first with a `\n` for each of its newlines. -/
inductive Unified : List Char → List Char → Prop
  | nil : Unified [] []
  | char {c : Char} {cs ds : List Char} (hc : isNewline c = false) (h : Unified cs ds) :
      Unified (c :: cs) (c :: ds)
  | newline {form cs ds : List Char} (hform : NewlineForm cs form) (h : Unified cs ds) :
      Unified (form ++ cs) ('\n' :: ds)

variable {c : Char} {form rest cs ds : List Char}

namespace NewlineForm

theorem ne_nil (h : NewlineForm rest form) : form ≠ [] := by
  cases h <;> exact List.cons_ne_nil _ _

theorem breaks (h : NewlineForm rest form) : Breaks form rest := by
  cases h with
  | feed | both => exact nofun
  | alone hrest => exact fun _ => hrest

theorem length_eq (h : NewlineForm rest form) : form.length = newlineSize (form ++ rest) := by
  cases h with
  | feed | both => rfl
  | alone hrest => simp [newlineSize, hrest]

theorem unify (h : NewlineForm rest form) : unifyNewlines form = ['\n'] := by
  cases h <;> rfl

end NewlineForm

/-- A newline has one of its forms. -/
theorem exists_newlineForm (h : isNewline c = true) (cs : List Char) :
    ∃ form rest, c :: cs = form ++ rest ∧ NewlineForm rest form := by
  obtain ⟨form, rest, hcs, -, hbreaks, rfl | rfl | rfl⟩ := exists_newline h cs
  · exact ⟨_, rest, hcs, .feed⟩
  · exact ⟨_, rest, hcs, .alone (hbreaks rfl)⟩
  · exact ⟨_, rest, hcs, .both⟩

theorem unifyNewlines_cons (h : isNewline c = false) (cs : List Char) :
    unifyNewlines (c :: cs) = c :: unifyNewlines cs := by
  rw [unifyNewlines, if_neg]
  rintro rfl
  cases h

theorem Unified.eq (h : Unified cs ds) : ds = unifyNewlines cs := by
  induction h with
  | nil => rfl
  | char hc _ ih => rw [unifyNewlines_cons hc, ih]
  | newline hform _ ih => rw [unifyNewlines_append hform.breaks, hform.unify, ← ih]; rfl

theorem unified_unifyNewlines (cs : List Char) : Unified cs (unifyNewlines cs) := by
  induction hlength : cs.length using Nat.strongRecOn generalizing cs with
  | _ length ih =>
  subst hlength
  cases cs with
  | nil => exact .nil
  | cons c cs =>
    cases hc : isNewline c with
    | false =>
      rw [unifyNewlines_cons hc]
      exact .char hc (ih _ (Nat.lt_succ_self _) _ rfl)
    | true =>
      obtain ⟨form, rest, hcs, hform⟩ := exists_newlineForm hc cs
      rw [hcs, unifyNewlines_append hform.breaks, hform.unify]
      refine .newline hform (ih _ ?_ _ rfl)
      have hpos := List.length_pos_iff.2 hform.ne_nil
      rw [hcs, List.length_append]
      omega

/-- There is one way only to give all newlines of a text one form. -/
theorem unified_iff : Unified cs ds ↔ ds = unifyNewlines cs :=
  ⟨Unified.eq, fun h => h ▸ unified_unifyNewlines cs⟩

theorem newlineSize_of_head (h : ∀ c ∈ cs.head?, isNewline c = false) : newlineSize cs = 0 := by
  cases cs with
  | nil => rfl
  | cons c cs => exact (newlineSize_eq_zero_iff c cs).2 (h c rfl)

/-! ## Bodies of long brackets -/

/-- The text that a body of a long bracket stands for: a newline at its head is left out, and every
other one is a `\n`. -/
inductive LongBracket.StandsFor : List Char → List Char → Prop
  | newline {form cs ds : List Char} (hform : NewlineForm cs form) (h : Unified cs ds) :
      StandsFor (form ++ cs) ds
  | text {cs ds : List Char} (hhead : ∀ c ∈ cs.head?, isNewline c = false) (h : Unified cs ds) :
      StandsFor cs ds

/-- A body stands for one text only. -/
theorem LongBracket.standsFor_iff : StandsFor cs ds ↔ ds = value cs := by
  constructor
  · rintro (⟨hform, h⟩ | ⟨hhead, h⟩)
    · rw [value, ← hform.length_eq, List.drop_left]
      exact unified_iff.1 h
    · rw [value, newlineSize_of_head hhead]
      exact unified_iff.1 h
  · rintro rfl
    by_cases hhead : ∀ c ∈ cs.head?, isNewline c = false
    · rw [value, newlineSize_of_head hhead]
      exact .text hhead (unified_iff.2 rfl)
    · simp only [not_forall, Bool.not_eq_false] at hhead
      obtain ⟨c, hc, hline⟩ := hhead
      obtain ⟨cs, rfl⟩ := List.head?_eq_some_iff.1 hc
      obtain ⟨form, rest, hcs, hform⟩ := exists_newlineForm hline cs
      rw [hcs, value, ← hform.length_eq, List.drop_left]
      exact .newline hform (unified_iff.2 rfl)

end LuaSource
