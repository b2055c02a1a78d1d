-- SUMMARY: Checked scanners pass their checks wherever scanners can come to, and do what those do.
import LuaSource.Checked.Lexer
import LuaSource.Proofs.Checked.Cursor

/-!
# Checked scanners at places of a source

A scanner moves its cursor on from a mark, and at most back to that mark. So the cursor is always at
a place of the source behind the mark, where all checks pass. That is kept by every way of putting
scanners together, and so there is one line for each scanner.
-/

namespace LuaSource.Checked.Scanner

open LuaSource.Scanner Scanning

variable {α β : Type}

/-! ## Agreement -/

/-- What a scanner comes to, as the checked cursor tells it. -/
def outcome : EStateM.Result (Located LexError) LuaSource.Cursor α →
    Except (Located LexError) α × Cursor
  | .ok a c => (.ok a, .of c)
  | .error e c => (.error e, .of c)

/-- The cursor that a scanner leaves, with a result or without. -/
def cursorOf : EStateM.Result (Located LexError) LuaSource.Cursor α → LuaSource.Cursor
  | .ok _ c => c
  | .error _ c => c

/-- The cursor is at a mark in the source or behind it. -/
structure Since (source : List Char) (start : Place) (c : LuaSource.Cursor) : Prop where
  source_eq : c.source = source
  reached : (Place.ofText source).Reaches start
  place : start.Reaches c.place

/-- From every cursor behind the mark, the checked scanner passes its checks and comes to the same
as the other one, and the cursor is behind the mark again. -/
def Agrees (source : List Char) (start : Place) (g : Scanner α) (f : LuaSource.Scanner α) : Prop :=
  ∀ c, Since source start c →
    g (.of c) = some (outcome (f c)) ∧ Since source start (cursorOf (f c))

variable {source : List Char} {start : Place} {c : LuaSource.Cursor}

theorem Since.in_source (h : Since source start c) : c.place.In c.source := by
  rw [h.source_eq]
  exact (h.reached.trans h.place).trueIn.1

theorem Since.move {c' : LuaSource.Cursor} (h : Since source start c) (hsource : c'.source = c.source)
    (hplace : c.place.Reaches c'.place) : Since source start c' :=
  ⟨hsource.trans h.source_eq, h.reached, h.place.trans hplace⟩

theorem Since.advance (h : Since source start c) : Since source start c.advance.2 :=
  h.move c.advance_source c.reaches_advance

theorem bind_apply (g : Scanner α) (k : α → Scanner β) (c : Cursor) :
    (g >>= k) c = (g c).bind fun r => match r with
      | (.ok a, c) => k a c
      | (.error e, c) => some (.error e, c) := by
  show Option.bind _ _ = _
  congr 1
  funext ⟨r, c'⟩
  cases r <;> rfl

theorem bind_of_some {g : Scanner α} {c c' : Cursor} {a : α} (h : g c = some (.ok a, c'))
    (k : α → Scanner β) : (g >>= k) c = k a c' := by
  rw [bind_apply, h, Option.bind_some]

namespace Agrees

variable {g g' : Scanner α} {f f' : LuaSource.Scanner α}

/-! ## Rules -/

protected theorem pure (a : α) : Agrees source start (pure a) (pure a) := fun _ h => ⟨rfl, h⟩

protected theorem bind {k : α → Scanner β} {k' : α → LuaSource.Scanner β}
    (h : Agrees source start g f) (hk : ∀ a, Agrees source start (k a) (k' a)) :
    Agrees source start (g >>= k) (f >>= k') := by
  intro c hc
  obtain ⟨heq, hleft⟩ := h c hc
  rw [bind_apply, heq]
  cases hf : f c with
  | ok a c' =>
    rw [hf] at hleft
    rw [LuaSource.Scanner.bind_ok hf]
    exact hk a c' hleft
  | error e c' =>
    rw [hf] at hleft
    rw [LuaSource.Scanner.bind_error hf]
    exact ⟨rfl, hleft⟩

protected theorem ite_eq {p : Prop} [Decidable p] (h : p → Agrees source start g f)
    (h' : ¬ p → Agrees source start g' f') :
    Agrees source start (if p then g else g') (if p then f else f') := by
  split
  · exact h ‹_›
  · exact h' ‹_›

protected theorem ite {p : Prop} [Decidable p] (h : Agrees source start g f)
    (h' : Agrees source start g' f') :
    Agrees source start (if p then g else g') (if p then f else f') :=
  .ite_eq (fun _ => h) fun _ => h'

/-- Looking at the text, where the check is known to pass. -/
protected theorem look {check : Cursor → Option α} {value : LuaSource.Cursor → α}
    (h : ∀ c, Since source start c → check (.of c) = some (value c)) :
    Agrees source start (Scanner.look check) (fun c => .ok (value c) c) := by
  intro c hc
  refine ⟨?_, hc⟩
  rw [Scanner.look, h c hc]
  rfl

/-- Moving the cursor, where the checks on the way are known to pass. -/
protected theorem move {step : Cursor → Option (α × Cursor)} {value : LuaSource.Cursor → α}
    {next : LuaSource.Cursor → LuaSource.Cursor}
    (h : ∀ c, Since source start c → step (.of c) = some (value c, .of (next c)))
    (hnext : ∀ c, Since source start c → Since source start (next c)) :
    Agrees source start (Scanner.move step) (fun c => .ok (value c) (next c)) := by
  intro c hc
  refine ⟨?_, hnext c hc⟩
  rw [Scanner.move, h c hc]
  rfl

/-! ## Actions -/

protected theorem peek : Agrees source start peek peek :=
  .look fun _ hc => Cursor.peek?_of hc.in_source

protected theorem peekSecond : Agrees source start peekSecond peekSecond :=
  .look fun _ hc => Cursor.peekSecond?_of hc.in_source

protected theorem rest : Agrees source start rest rest :=
  .look fun _ hc => Cursor.rest?_of hc.in_source

protected theorem advance : Agrees source start advance advance :=
  .move (fun _ hc => by rw [Cursor.advance?_of hc.in_source]; rfl) fun _ hc => hc.advance

protected theorem eat (expected : Char) :
    Agrees source start (eat expected) (eat expected) := by
  refine .move (fun c hc => Cursor.eat?_of hc.in_source expected) fun c hc => ?_
  rcases c.place_eat expected with heq | heq
  · rw [heq]
    exact hc.advance
  · rw [heq]
    exact hc

protected theorem save (ch : Char) : Agrees source start (save ch) (save ch) :=
  .move (fun _ _ => rfl) fun _ hc => hc.move rfl (.refl _)

protected theorem saveAndAdvance :
    Agrees source start saveAndAdvance saveAndAdvance := by
  refine .move (fun c hc => by rw [Cursor.saveAndAdvance?_of hc.in_source]; rfl) fun c hc => ?_
  obtain ⟨hplace, hsource⟩ := c.place_saveAndAdvance
  exact hc.move hsource (hplace ▸ c.reaches_advance)

protected theorem takeBuffer : Agrees source start takeBuffer takeBuffer :=
  .move (fun _ _ => rfl) fun _ hc => hc.move rfl (.refl _)

protected theorem clearBuffer : Agrees source start clearBuffer clearBuffer :=
  .move (fun _ _ => rfl) fun _ hc => hc.move rfl (.refl _)

protected theorem fail (e : LexError) :
    Agrees source start (fail e : Scanner α) (fail e) :=
  fun _ h => ⟨rfl, h⟩

/-- A mark is set where the cursor is. What is behind it is behind every mark that was set before. -/
protected theorem mark {k : Position → Scanner α} {k' : Place → LuaSource.Scanner α}
    (h : ∀ p, Agrees source p (k p.position) (k' p)) :
    Agrees source start (mark >>= k) (mark >>= k') := by
  intro c hc
  obtain ⟨heq, hleft⟩ := h c.place c ⟨hc.source_eq, hc.reached.trans hc.place, .refl _⟩
  exact ⟨heq, hleft.source_eq, hc.reached, hc.place.trans hleft.place⟩

protected theorem restore :
    Agrees source start (restore start.position) (restore start) :=
  .move (fun _ _ => rfl) fun _ hc => ⟨hc.source_eq, hc.reached, .refl _⟩

protected theorem sliceFrom :
    Agrees source start (sliceFrom start.position) (sliceFrom start) := by
  refine .look fun c hc => ?_
  rw [Cursor.sliceFrom?_of (hc.source_eq ▸ hc.reached.trueIn.1) hc.place]
  rfl

protected theorem token (s : Symbol) (value : Option String) :
    Agrees source start (token start.position s value) (token start s value) :=
  .look fun _ _ => rfl

/-! ## Repetition -/

protected theorem loopAlong {step : Char → α → Scanner (α ⊕ β)} {atEnd : α → Scanner β}
    {step' : Char → α → LuaSource.Scanner (α ⊕ β)} {atEnd' : α → LuaSource.Scanner β}
    (hstep : ∀ ch a, Agrees source start (step ch a) (step' ch a))
    (hend : ∀ a, Agrees source start (atEnd a) (atEnd' a)) (bound : List Char) (a : α) :
    Agrees source start (loopAlong step atEnd bound a)
      (loopAlong step' atEnd' bound a) := by
  induction bound generalizing a with
  | nil => exact hend a
  | cons d bound ih =>
    refine .bind .peek fun next => ?_
    cases next with
    | none => exact hend a
    | some ch =>
      refine .bind (hstep ch a) fun r => ?_
      cases r with
      | inl a => exact ih a
      | inr b => exact .pure b

protected theorem loop {step : Char → α → Scanner (α ⊕ β)} {atEnd : α → Scanner β}
    {step' : Char → α → LuaSource.Scanner (α ⊕ β)} {atEnd' : α → LuaSource.Scanner β}
    (hstep : ∀ ch a, Agrees source start (step ch a) (step' ch a))
    (hend : ∀ a, Agrees source start (atEnd a) (atEnd' a)) (a : α) :
    Agrees source start (loop step atEnd a) (loop step' atEnd' a) :=
  .bind .rest fun bound => .loopAlong hstep hend bound a

protected theorem whileNext (p : Char → Bool) {act : Scanner Unit} {act' : LuaSource.Scanner Unit}
    (h : Agrees source start act act') :
    Agrees source start (whileNext p act) (whileNext p act') :=
  .loop (fun _ _ => .ite (.bind h fun _ => .pure _) (.pure _)) (fun _ => .pure _) ()

end Agrees

/-! ## Long brackets -/

theorem equals_agrees : Agrees source start equals equals :=
  .loop (fun _ _ => .ite (.bind .advance fun _ => .pure _) (.pure _)) .pure 0

theorem saveEquals_agrees (n : Nat) :
    Agrees source start (saveEquals n) (saveEquals n) := by
  induction n with
  | zero => exact .pure ()
  | succ n ih => exact .bind (.save '=') fun _ => ih

theorem openBracket_agrees : Agrees source start openBracket openBracket :=
  .bind .advance fun _ => equals_agrees.bind fun _ => .bind (.eat '[') fun _ => .pure _

theorem bodyStep_agrees (level : Nat) (ch : Char) (u : Unit) :
    Agrees source start (bodyStep level ch u) (bodyStep level ch u) := by
  refine .ite (.bind .advance fun _ => equals_agrees.bind fun count => ?_)
    (.bind .saveAndAdvance fun _ => .pure _)
  refine .bind (.ite (.eat ']') (.pure false)) fun closes => .ite ?_ ?_
  · exact .bind .takeBuffer fun _ => .pure _
  · exact .bind (.save ']') fun _ => (saveEquals_agrees count).bind fun _ => .pure _

theorem skipNewline_agrees : Agrees source start skipNewline skipNewline :=
  .bind .peek fun _ => .ite .advance (.pure ())

theorem bracketBody_agrees (level : Nat) (unfinished : LexError) :
    Agrees source start (bracketBody level unfinished)
      (bracketBody level unfinished) :=
  skipNewline_agrees.bind fun _ => .loop (bodyStep_agrees level) (fun _ => .fail unfinished) ()

theorem skipLine_agrees : Agrees source start skipLine skipLine :=
  .whileNext _ .advance

theorem skipComment_agrees : Agrees source start skipComment skipComment := by
  refine .bind .peek fun _ => .ite (.mark fun p => openBracket_agrees.bind fun r => ?_)
    skipLine_agrees
  cases r with
  | ok level => exact (bracketBody_agrees level _).bind fun _ => .clearBuffer
  | error n => exact .bind .restore fun _ => skipLine_agrees

theorem bracket_agrees :
    Agrees source start (bracket start.position) (bracket start) := by
  refine openBracket_agrees.bind fun r => ?_
  cases r with
  | ok level => exact (bracketBody_agrees level _).bind fun value => .token .string value
  | error n =>
    cases n with
    | zero => exact .bind .restore fun _ => .bind .advance fun _ => .token .leftBracket none
    | succ n => exact .bind .sliceFrom fun _ => .fail _

/-! ## Short strings -/

theorem failString_agrees (e : LexError) :
    Agrees source start (failString e : Scanner α) (failString e) :=
  .bind .clearBuffer fun _ => .fail e

theorem decimalDigits_agrees (n : Nat) (digits : List Char) :
    Agrees source start (decimalDigits n digits) (decimalDigits n digits) := by
  induction n generalizing digits with
  | zero => exact .pure digits
  | succ n ih =>
    refine .bind .peek fun next => ?_
    cases next with
    | none => exact .pure digits
    | some ch => exact .ite (.bind .advance fun _ => ih _) (.pure digits)

theorem decimalEscape_agrees : Agrees source start decimalEscape decimalEscape :=
  (decimalDigits_agrees 3 []).bind fun _ => .ite (.save _) (failString_agrees _)

theorem digitValue_lt {ch : Char} (h : isHexDigit ch = true) : digitValue ch < 16 := by
  simp only [isHexDigit, Char.isDigit, Bool.or_eq_true, Bool.and_eq_true, decide_eq_true_eq,
    Char.le_def, ge_iff_le, UInt32.le_iff_toNat_le, Char.reduceVal, UInt32.reduceToNat] at h
  simp only [digitValue, Char.isDigit, Bool.and_eq_true, decide_eq_true_eq, Char.le_def,
    ge_iff_le, UInt32.le_iff_toNat_le, Char.toNat, Char.reduceVal, UInt32.reduceToNat]
  split
  · omega
  · split <;> omega

protected theorem Agrees.byte {n : Nat} (h : n < 256) {k : Nat → Scanner α}
    {k' : Nat → LuaSource.Scanner α} (hk : Agrees source start (k n) (k' n)) :
    Agrees source start (byte n >>= k) (byte n >>= k') := by
  intro c hc
  have hbyte : (byte n : Scanner Nat) (.of c) = some (.ok n, .of c) :=
    congrArg (Option.map fun n => (Except.ok n, Cursor.of c)) (if_pos h)
  rw [bind_of_some hbyte]
  exact hk c hc

/-- A byte has room for the digits that are missing, whatever they are. -/
theorem hexDigits_agrees (n : Nat) (seen : List Char) {value : Nat}
    (hvalue : (value + 1) * 16 ^ n ≤ 256) :
    Agrees source start (hexDigits n seen value) (hexDigits n seen value) := by
  induction n generalizing seen value with
  | zero => exact .save _
  | succ n ih =>
    refine .bind .peek fun next => ?_
    cases next with
    | none => exact failString_agrees _
    | some ch =>
      refine .ite_eq (fun hdigit => .bind .advance fun _ => ?_) (fun _ => failString_agrees _)
      have hd := digitValue_lt hdigit
      have hroom : value * 16 + digitValue ch + 1 ≤ (value + 1) * 16 := by omega
      have hnext : (value * 16 + digitValue ch + 1) * 16 ^ n ≤ 256 := calc
        _ ≤ (value + 1) * 16 * 16 ^ n := Nat.mul_le_mul_right _ hroom
        _ = (value + 1) * 16 ^ (n + 1) := by rw [Nat.pow_succ, Nat.mul_assoc, Nat.mul_comm 16]
        _ ≤ 256 := hvalue
      have hbyte : value * 16 + digitValue ch + 1 ≤ 256 :=
        (Nat.le_mul_of_pos_right _ (Nat.pow_pos (by decide))).trans hnext
      exact .byte (by omega) (.byte (by omega) (ih _ hnext))

theorem escape_agrees : Agrees source start escape escape := by
  refine .bind .peek fun next => ?_
  cases next with
  | none => exact failString_agrees _
  | some ch =>
    dsimp only
    cases Quoted.letters.lookup ch with
    | some d => exact .bind .advance fun _ => .save _
    | none =>
      refine .ite (.bind .advance fun _ => .save _) (.ite ?_ (.ite decimalEscape_agrees ?_))
      · exact .bind .advance fun _ => hexDigits_agrees 2 _ (by decide)
      · exact .bind .advance fun _ => .save _

theorem quotedStep_agrees (quote ch : Char) (u : Unit) :
    Agrees source start (quotedStep quote start.position ch u)
      (quotedStep quote start ch u) := by
  refine .ite (.bind .sliceFrom fun _ => failString_agrees _) (.ite ?_ (.ite ?_ ?_))
  · exact .bind .advance fun _ => escape_agrees.bind fun _ => .pure _
  · exact .bind .advance fun _ => .pure _
  · exact .bind .saveAndAdvance fun _ => .pure _

theorem quoted_agrees (quote : Char) :
    Agrees source start (quoted quote start.position) (quoted quote start) :=
  .bind .advance fun _ =>
    .bind (.loop (quotedStep_agrees quote) (fun _ => failString_agrees _) ()) fun _ =>
      .bind .takeBuffer fun value => .token .string value

/-! ## Numerals and words -/

theorem saveSign_agrees : Agrees source start saveSign saveSign :=
  .bind .peek fun _ => .ite .saveAndAdvance (.pure ())

theorem numeralStep_agrees (hex : Bool) (ch : Char) (seen : Seen) :
    Agrees source start (numeralStep hex ch seen) (numeralStep hex ch seen) :=
  .ite (.bind .saveAndAdvance fun _ => saveSign_agrees.bind fun _ => .pure _)
    (.ite (.bind .saveAndAdvance fun _ => .pure _)
      (.ite (.bind .saveAndAdvance fun _ => .pure _) (.pure _)))

theorem hexNext_agrees : Agrees source start hexNext hexNext :=
  .bind .peek fun _ => .bind .peekSecond fun _ => .pure _

theorem saveHexMark_agrees : Agrees source start saveHexMark saveHexMark :=
  .bind .saveAndAdvance fun _ => .saveAndAdvance

theorem numeralRest_agrees (hex : Bool) :
    Agrees source start (numeralRest hex start.position)
      (numeralRest hex start) :=
  .bind (.loop (numeralStep_agrees hex) (fun _ => .pure _) _) fun _ =>
    .bind (.whileNext _ .saveAndAdvance) fun _ => .bind .takeBuffer fun value => .token .number value

theorem numeral_agrees :
    Agrees source start (numeral start.position) (numeral start) :=
  hexNext_agrees.bind fun hex => .ite (saveHexMark_agrees.bind fun _ => numeralRest_agrees hex)
    (numeralRest_agrees hex)

theorem word_agrees : Agrees source start (word start.position) (word start) := by
  refine .bind (.whileNext _ .saveAndAdvance) fun _ => .bind .takeBuffer fun text => ?_
  cases Symbol.keyword? text with
  | some keyword => exact .token keyword none
  | none => exact .token .name text

/-! ## Tokens -/

theorem oneOrTwo_agrees (second : Char) (short long : Symbol) :
    Agrees source start (oneOrTwo second short long start.position)
      (oneOrTwo second short long start) :=
  .bind .advance fun _ => .bind (.eat second) fun _ => .ite (.token long none) (.token short none)

theorem dots_agrees : Agrees source start (dots start.position) (dots start) :=
  .bind .advance fun _ => .bind (.eat '.') fun _ =>
    .ite (.bind (.eat '.') fun _ => .ite (.token .ellipsis none) (.token .concat none))
      (.token .dot none)

theorem lexeme_agrees (ch : Char) :
    Agrees source start (lexeme ch start.position) (lexeme ch start) := by
  refine .ite bracket_agrees (.ite (oneOrTwo_agrees _ _ _) (.ite (oneOrTwo_agrees _ _ _)
    (.ite (oneOrTwo_agrees _ _ _) (.ite (oneOrTwo_agrees _ _ _) (.ite ?_ (.ite ?_
      (.ite (quoted_agrees ch) (.ite numeral_agrees (.ite word_agrees ?_)))))))))
  · exact .bind .advance fun _ => .bind (.eat '=') fun _ => .ite (.token .notEqual none) (.fail _)
  · exact .bind .peekSecond fun _ => .ite numeral_agrees dots_agrees
  · cases single? ch with
    | some s => exact .bind .advance fun _ => .token s none
    | none => exact .fail _

theorem nextStep_agrees (ch : Char) (u : Unit) :
    Agrees source start (nextStep ch u) (nextStep ch u) := by
  refine .mark fun p => .ite (.bind .advance fun _ => .pure _) (.ite ?_ ?_)
  · refine .bind .advance fun _ => .bind (.eat '-') fun _ => .ite ?_ ?_
    · exact skipComment_agrees.bind fun _ => .pure _
    · exact .bind (.token .minus none) fun _ => .pure _
  · exact (lexeme_agrees ch).bind fun _ => .pure _

theorem next_agrees : Agrees source start next next :=
  .loop nextStep_agrees (fun _ => .mark fun _ => .token .eof none) ()

end LuaSource.Checked.Scanner
