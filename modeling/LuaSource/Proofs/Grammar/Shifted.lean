-- SUMMARY: Tokens behind others are parsed in step with the same tokens alone.
import LuaSource.Proofs.Grammar.InStepGrammar
import LuaSource.Proofs.Lexer.Shift

/-!
# Shifted tokens

Where all tokens are moved by the same distance, those on one line stay on one line. So a parse
goes on as before, and where it ends with a fault, the fault is moved like the token that it is
about, together with the line that it may tell.
-/

namespace LuaSource

/-- A fault about tokens that are moved. -/
def ParseFault.shifted (d : Shift) : ParseFault → ParseFault
  | unclosed wanted opener line near => unclosed wanted opener (line + d.lines) near
  | fault => fault

def Shift.fault (d : Shift) (e : Located ParseFault) : Located ParseFault :=
  ⟨e.cause.shifted d, e.span.shifted d⟩

namespace Window

/-- The second window is on the tokens of the first one, moved. What stands before them plays a part
only behind the first `n` of them. -/
structure Shifts (d : Shift) (n : Nat) (w v : Window) : Prop where
  ahead : v.ahead = w.ahead.map (·.shifted d)
  ending : v.ending = d.result w.ending
  before : 1 ≤ n → v.before = w.before.shifted d

namespace Shifts

variable {d : Shift} {n m : Nat} {w v : Window}

theorem mono (h : w.Shifts d n v) (hm : m ≤ n) : w.Shifts d m v :=
  ⟨h.ahead, h.ending, fun hpos => h.before (hpos.trans hm)⟩

theorem endToken (h : w.Shifts d n v) : v.endToken = w.endToken.shifted d := by
  unfold Window.endToken
  rw [h.ending]
  cases w.ending <;> rfl

theorem token (h : w.Shifts d n v) (k : Nat) :
    v.ahead[k]?.getD v.endToken = (w.ahead[k]?.getD w.endToken).shifted d := by
  rw [h.ahead, h.endToken, List.getElem?_map]
  cases w.ahead[k]? <;> rfl

theorem current (h : w.Shifts d n v) : v.current = w.current.shifted d := by
  unfold Window.current
  rw [List.head?_eq_getElem?, List.head?_eq_getElem?]
  exact h.token 0

theorem following (h : w.Shifts d n v) : v.following = w.following.shifted d := h.token 1

theorem length (h : w.Shifts d n v) : w.ahead.length = v.ahead.length := by
  rw [h.ahead, List.length_map]

theorem errorWithin? (h : w.Shifts d n v) (k : Nat) :
    v.errorWithin? k = (w.errorWithin? k).map (·.shifted d) := by
  unfold Window.errorWithin?
  rw [h.ending, h.ahead, ← List.map_drop]
  cases w.ending with
  | ok t => rfl
  | error e =>
    dsimp only [Shift.result, Except.map, Except.mapError]
    cases w.ahead.drop (k - 1) <;> rfl

/-- Both windows go on by a token, or neither does. -/
theorem consume (h : w.Shifts d n v) :
    (∃ w' v', w.consume = .ok (w.current, w') ∧ v.consume = .ok (v.current, v') ∧
      w'.Shifts d (n + 1) v') ∨
    ∃ e e', w.consume = .error e ∧ v.consume = .error e' ∧ e' = d.fault e := by
  unfold Window.consume
  rw [h.errorWithin? 3]
  cases w.errorWithin? 3 with
  | some e => exact .inr ⟨_, _, rfl, rfl, rfl⟩
  | none =>
    refine .inl ⟨_, _, rfl, rfl, ?_, h.ending, fun _ => ?_⟩
    · show v.ahead.tail = _
      rw [h.ahead, List.map_tail]
    · show v.current.span.stop = _
      rw [h.current]
      rfl

theorem fault (h : w.Shifts d n v) {f : String → ParseFault} (hf : ParseFault.Lineless f) :
    v.fault f = d.fault (w.fault f) := by
  have hcause : ∀ near, (f near).shifted d = f near := by
    intro near
    have hline := hf near
    cases hnear : f near with
    | unclosed wanted opener line near' =>
      rw [hnear] at hline
      cases hline
    | _ => rfl
  rw [Window.fault, h.current]
  exact congrArg (Located.mk · _) (hcause _).symm

theorem closingFault (h : w.Shifts d n v) (closer opener : Symbol) (line : Nat) :
    v.closingFault closer opener (line + d.lines) =
      d.fault (w.closingFault closer opener line) := by
  have hline : v.current.span.start.line = w.current.span.start.line + d.lines := by
    rw [h.current]
    rfl
  unfold Window.closingFault
  simp only [hline, Nat.add_right_cancel_iff]
  split
  · exact h.fault fun _ => rfl
  · rw [Window.fault, h.current]
    rfl

theorem joined (h : w.Shifts d (n + 1) v) : v.Joined ↔ w.Joined := by
  rw [Joined, Joined, h.current, h.before (Nat.le_add_left 1 n)]
  exact Nat.add_right_cancel_iff

end Shifts

end Window

/-- Moved tokens are parsed in step with the tokens themselves, up to the end of both runs. -/
def Shift.parallel (d : Shift) : Parallel where
  At := Window.Shifts d
  Lines line line' := line' = line + d.lines
  Faults e e' := e' = d.fault e
  Left _ := False
  Right _ := False
  at_mono := Window.Shifts.mono
  lexeme_eq h := by
    rw [h.current]
    rfl
  lines h := by
    rw [h.current]
    rfl
  following_eq h := by
    rw [h.following]
    rfl
  length_eq := Window.Shifts.length
  consumes := Window.Shifts.consume
  faults h hf := h.fault hf
  closingFaults := by
    rintro n w v closer opener line _ h rfl
    exact h.closingFault closer opener line
  left h _ hw hv := absurd (h.joined.1 hv) hw
  right h _ hw hv := absurd (h.joined.2 hw) hv

/-- A chunk is parsed in the same way wherever its tokens stand. -/
theorem Window.Shifts.chunk {d : Shift} {w v : Window} (h : w.Shifts d 0 v) (depth : Nat) :
    (∀ b w', Grammar.chunk (Level.ofDepth depth) w = .ok (b, w') →
      ∃ b' v', Grammar.chunk (Level.ofDepth depth) v = .ok (b', v') ∧
        Shape.block b' = Shape.block b) ∧
    ∀ e, Grammar.chunk (Level.ofDepth depth) w = .error e →
      Grammar.chunk (Level.ofDepth depth) v = .error (d.fault e) := by
  have houtcome : d.parallel.Outcome 0 Shape.block (Grammar.chunk (Level.ofDepth depth) w)
      (Grammar.chunk (Level.ofDepth depth) v) := d.parallel.chunk_inStep depth w v h
  generalize Grammar.chunk (Level.ofDepth depth) w = r at houtcome
  generalize Grammar.chunk (Level.ofDepth depth) v = r' at houtcome
  cases houtcome with
  | ok hshape _ =>
    refine ⟨?_, nofun⟩
    rintro b w' ⟨⟩
    exact ⟨_, _, rfl, hshape.symm⟩
  | faults hfault =>
    refine ⟨nofun, ?_⟩
    rintro e ⟨⟩
    exact congrArg Except.error hfault
  | left hnever => cases hnever
  | right hnever => cases hnever

end LuaSource
