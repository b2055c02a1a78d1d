-- SUMMARY: What passing over a `#` line changes in the calls that follow, on a fresh lexer and on one that has read on.
import LuaSource.Proofs.Lexer.Calls
import LuaSource.Proofs.Lexer.Places

/-!
# Lines that start a script

On a fresh lexer only a line that starts with `#` is passed over, and what is answered from there on
is what stands behind that line. A lexer that has read on is told from a fresh one by its offset
alone: within the first three bytes, which a mark of byte order would take up, the line of any `#`
that comes next is passed over.
-/

namespace LuaSource

namespace Place

variable {p q : Place}

/-- The second place is at the end of a line that starts with `#` at the first one: before the
newline, or at the end of the source. -/
def HashLine (p q : Place) : Prop :=
  ∃ line, p.rest = '#' :: (line ++ q.rest) ∧ (∀ c ∈ line, isNewline c = false) ∧
    (∀ c ∈ q.rest.head?, isNewline c = true) ∧ q.position = p.position.after ('#' :: line)

theorem HashLine.skipShebang_eq (h : p.HashLine q) (hoffset : p.position.offset ≤ 3) :
    p.skipShebang = q := by
  obtain ⟨line, hp, hline, hrest, hposition⟩ := h
  have hscript : p.isScriptStart = true := by
    rw [isScriptStart, hp, decide_eq_true hoffset]
    rfl
  have hall : ∀ c ∈ '#' :: line, (!isNewline c) = true :=
    List.forall_mem_cons.2 ⟨rfl, fun c hc => by rw [hline c hc]; rfl⟩
  have hstop : q.rest.head?.any (!isNewline ·) = false := by
    cases hcs : q.rest with
    | nil => rfl
    | cons c cs => simp [hrest c (by rw [hcs]; rfl)]
  have htake : p.rest.takeWhile (!isNewline ·) = '#' :: line := by
    rw [hp, ← List.cons_append, takeWhile_append hall hstop]
  rw [skipShebang, if_pos hscript, htake, skip, hp]
  have hskip := skip_append ('#' :: line) q.rest p.position
  rw [← hposition] at hskip
  exact hskip

/-- Where a `#` stands, its line ends somewhere. -/
theorem exists_hashLine (h : p.rest.head? = some '#') : ∃ q, p.HashLine q := by
  obtain ⟨cs, hcs⟩ := List.head?_eq_some_iff.1 h
  obtain ⟨line, rest, rfl, -, hall, hrest⟩ := exists_takeWhile (!isNewline ·) cs
  refine ⟨⟨rest, _⟩, line, hcs, fun c hc => by simpa using hall c hc, fun c hc => ?_, rfl⟩
  have hhead : rest.head? = some c := hc
  simpa [hhead] using hrest

theorem skipShebang_of_not (h : p.isScriptStart = false) : p.skipShebang = p := by
  rw [skipShebang, h, if_neg Bool.false_ne_true]

theorem isScriptStart_eq_false_iff :
    p.isScriptStart = false ↔ ¬(p.position.offset ≤ 3 ∧ p.rest.head? = some '#') := by
  simp [isScriptStart]

/-- Nothing but a mark of byte order stands before the place where a source is read from. -/
theorem offset_ofText_eq (source : List Char) :
    (ofText source).position.offset = if source.head? = some '\uFEFF' then 3 else 0 := by
  cases source with
  | nil => rfl
  | cons c cs =>
    by_cases hc : c = '\uFEFF'
    · subst hc
      rfl
    · have hhead : (c :: cs).head? ≠ some '\uFEFF' := fun h => hc (Option.some.inj h)
      rw [ofText_eq hhead, if_neg hhead]
      rfl

theorem offset_ofText_le (source : List Char) : (ofText source).position.offset ≤ 3 := by
  rw [offset_ofText_eq]
  split <;> omega

/-- A place further on has a greater offset. -/
theorem Reaches.offset_lt (h : p.Reaches q) (hne : q ≠ p) :
    p.position.offset < q.position.offset := by
  obtain ⟨passed, hrest, -, hposition⟩ := h
  have hle := p.position.offset_le_after passed
  have hpassed : passed ≠ [] := by
    rintro rfl
    exact hne (congrArg₂ Place.mk hrest.symm hposition)
  have hpos := List.length_pos_iff.2 hpassed
  rw [hposition]
  omega

/-- What is read behind a `#` starts behind it, whereas the `#` itself is read where it stands. -/
theorem readToken_skipShebang_ne (h : p.isScriptStart = true) :
    p.skipShebang.readToken.1 ≠ p.readToken.1 := by
  obtain ⟨hoffset, hhead⟩ := Bool.and_eq_true_iff.1 h
  obtain ⟨q, hq⟩ := exists_hashLine (eq_of_beq hhead)
  rw [hq.skipShebang_eq (of_decide_eq_true hoffset)]
  obtain ⟨line, hp, -, -, hposition⟩ := hq
  have hends : Trivia.Ends (['#'] ++ (line ++ q.rest)) := by
    rintro c ⟨⟩
    exact ⟨rfl, nofun⟩
  have hhash : p.readToken.1 =
      .ok { symbol := .hash, span := ⟨p.position, p.position.after ['#']⟩ } := by
    rw [show p = ⟨[] ++ (['#'] ++ (line ++ q.rest)), p.position⟩ from
      congrArg (Place.mk · p.position) hp]
    exact congrArg Prod.fst (readToken_ok (Trivia.read_of_ends hends) rfl)
  rw [hhash]
  intro heq
  have hle : q.position.offset ≤ p.position.offset :=
    offset_le_start (Prod.ext heq rfl : q.readToken = (_, q.readToken.2))
  have hlt := p.position.offset_le_after ('#' :: line)
  rw [← hposition, List.length_cons] at hlt
  omega

end Place

namespace Lexer

variable {l l' : Lexer} {p : Place}

/-- What calls answer depends on the place of the lexer alone. -/
theorem At.answer_eq (h : l.At p) (h' : l'.At p) (n : Nat) : l.answer n = l'.answer n := by
  induction n generalizing l l' p with
  | zero => rw [answer_zero, answer_zero, h.next.1, h'.next.1]
  | succ n ih => exact ih h.next.2 h'.next.2

theorem At.skipShebang (h : l.At p) : l.skipShebang.At p.skipShebang := by
  obtain ⟨rfl, hbuffer | hnil⟩ := h
  · exact ⟨rfl, .inl hbuffer⟩
  · refine ⟨rfl, .inr ?_⟩
    obtain ⟨passed, hrest, -⟩ := l.cursor.place.reaches_skipShebang
    rw [hnil] at hrest
    exact (List.append_eq_nil_iff.1 hrest.symm).2

theorem at_ofText (source : String) : (ofText source).At (Place.ofText source.toList) :=
  at_ofSource source false

/-- Calls go on from place to place of the source. -/
theorem At.after {source : List Char} (h : l.At p) (hp : (Place.ofText source).Reaches p) (k : Nat) :
    ∃ q, (l.after k).At q ∧ (Place.ofText source).Reaches q := by
  induction k generalizing l p with
  | zero => exact ⟨p, h, hp⟩
  | succ k ih => exact ih h.next.2 (hp.trans hp.readToken)

/-- Passing over a line changes what the calls answer just if there is a line that is passed. -/
theorem At.skipShebang_inert_iff (h : l.At p) :
    (∀ n, l.skipShebang.answer n = l.answer n) ↔ p.isScriptStart = false := by
  constructor
  · intro hsame
    refine eq_false_of_ne_true fun hscript => Place.readToken_skipShebang_ne hscript ?_
    have hfirst := hsame 0
    rwa [answer_zero, answer_zero, h.skipShebang.next.1, h.next.1] at hfirst
  · intro hscript n
    have hat := h.skipShebang
    rw [Place.skipShebang_of_not hscript] at hat
    exact hat.answer_eq h n

/-- On a fresh lexer, the line of a `#` that the source starts with is passed over: all calls answer
as they do for a lexer at the end of that line, whose position in the source is the true one. If the
source starts with another character, no call answers otherwise than before. A lexer that has read
on answers as before too, except within the first three bytes of a source without a mark of byte
order if a `#` comes next: then it is the line of this `#` that is passed over. -/
theorem skipShebang_answer (source : String) :
    ((ofText source).cursor.peek = some '#' → ∃ q, (ofText source).cursor.place.HashLine q ∧
      q.position.TrueIn source.toList ∧ ∀ l : Lexer, l.At q → ∀ n,
        (ofText source).skipShebang.answer n = l.answer n ∧
          (spanOf (l.answer n)).TrueIn source.toList) ∧
    ((ofText source).cursor.peek ≠ some '#' →
      ∀ n, (ofText source).skipShebang.answer n = (ofText source).answer n) ∧
    ∀ k, ((ofText source).after k).cursor.place ≠ (ofText source).cursor.place →
      ((∀ n, ((ofText source).after k).skipShebang.answer n = ((ofText source).after k).answer n) ↔
        ¬(source.toList.head? ≠ some '\uFEFF' ∧
          ((ofText source).after k).cursor.position.offset ≤ 3 ∧
          ((ofText source).after k).cursor.peek = some '#')) ∧
      ∀ q, ((ofText source).after k).cursor.position.offset ≤ 3 →
        ((ofText source).after k).cursor.place.HashLine q →
        ∀ l : Lexer, l.At q → ∀ n, ((ofText source).after k).skipShebang.answer n = l.answer n := by
  have hfresh := at_ofText source
  refine ⟨fun hhash => ?_, fun hother => ?_, fun k hread => ?_⟩
  · obtain ⟨q, hq⟩ := Place.exists_hashLine (p := Place.ofText source.toList) hhash
    have hskip := hq.skipShebang_eq (Place.offset_ofText_le _)
    have hreaches : (Place.ofText source.toList).Reaches q := hskip ▸ Place.reaches_skipShebang _
    exact ⟨q, hq, hreaches.trueIn.2, fun l hl n =>
      ⟨(hskip ▸ hfresh.skipShebang).answer_eq hl n, hl.trueIn_answer hreaches n⟩⟩
  · exact hfresh.skipShebang_inert_iff.2
      (Place.isScriptStart_eq_false_iff.2 fun hscript => hother hscript.2)
  · obtain ⟨q, hq, hreaches⟩ := hfresh.after (.refl _) k
    have hplace : ((ofText source).after k).cursor.place = q := hq.1
    rw [hplace] at hread
    rw [hq.skipShebang_inert_iff, Place.isScriptStart_eq_false_iff, Cursor.position, Cursor.peek,
      hplace]
    refine ⟨not_congr ⟨fun hscript => ⟨fun hmark => ?_, hscript⟩, And.right⟩,
      fun r hoffset hline l hl n => ?_⟩
    · -- Behind a mark of byte order, what has been read is beyond the third byte.
      have hlt := hreaches.offset_lt hread
      rw [Place.offset_ofText_eq, if_pos hmark] at hlt
      omega
    · exact (hline.skipShebang_eq hoffset ▸ hq.skipShebang).answer_eq hl n

theorem skipShebang_answer_marked :
    (∃ q, (ofText "\uFEFF#!\nx").cursor.place.HashLine q ∧ q.position.TrueIn "\uFEFF#!\nx".toList ∧
      ∀ l : Lexer, l.At q → ∀ n, (ofText "\uFEFF#!\nx").skipShebang.answer n = l.answer n ∧
        (spanOf (l.answer n)).TrueIn "\uFEFF#!\nx".toList) ∧
    (∀ n, (ofText " #").skipShebang.answer n = (ofText " #").answer n) ∧
    ∀ n, ((ofText "\uFEFFa#").after 1).skipShebang.answer n =
      ((ofText "\uFEFFa#").after 1).answer n := by
  refine ⟨(skipShebang_answer _).1 rfl, (skipShebang_answer _).2.1 (by decide), ?_⟩
  exact ((skipShebang_answer _).2.2 1 (by decide)).1.2 fun h => h.1 rfl

/-- Behind a name of one character, a `#` is taken for the start of a script. -/
theorem not_skipShebang_inert :
    ((ofText "x#y").after 1).cursor.place ≠ (ofText "x#y").cursor.place ∧
      ((ofText "x#y").after 1).skipShebang.answer 0 ≠ ((ofText "x#y").after 1).answer 0 := by
  decide

end Lexer

end LuaSource
