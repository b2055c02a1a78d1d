-- SUMMARY: Two layouts of the same lexemes are parsed in step, up to arguments on a new line.
import LuaSource.Proofs.Grammar.InStep
import LuaSource.Proofs.Grammar.Locality

/-!
# Two layouts of the same lexemes

Two token sequences with the same lexemes differ in where the tokens stand. Where just one of two
runs on them ends with a fault, this is about arguments that begin on a new line: only there does
the grammar look at lines to decide what to do.
-/

namespace LuaSource

/-! ## Windows -/

namespace Window

variable {w w' : Window} {k : Nat}

/-- Behind a token, the window tells where it ends. -/
theorem before_of_advance (h : w.advance (k + 1) = .ok w') :
    w'.before = (w.token k).span.stop := by
  rw [advance_add] at h
  cases hk : w.advance k with
  | error e =>
    rw [hk] at h
    cases h
  | ok v =>
    rw [hk] at h
    have hv : v.consume.bind (fun r => .ok r.2) = .ok w' := h
    cases hc : v.consume with
    | error e =>
      rw [hc] at hv
      cases hv
    | ok r =>
      rw [hc] at hv
      cases hv
      obtain ⟨-, hr⟩ := consume_eq_ok hc
      rw [hr, ← token_zero, token_of_advance hk, Nat.add_zero]

/-- A fault about arguments that begin on another line than the one on which the token before them
ends. -/
def Splits (w : Window) (e : Located ParseFault) : Prop :=
  ∃ k, (w.token (k + 1)).symbol = .leftParen ∧
    (w.token k).span.stop.line ≠ (w.token (k + 1)).span.start.line ∧
    e = ⟨.ambiguousCall (w.token (k + 1)).text, (w.token (k + 1)).span⟩

theorem splits_of_advance (h : w.advance (k + 1) = .ok w') (hs : w'.current.symbol = .leftParen)
    (hline : w'.before.line ≠ w'.current.span.start.line) :
    w.Splits ⟨.ambiguousCall w'.current.text, w'.current.span⟩ := by
  have hcurrent : w'.current = w.token (k + 1) := by
    rw [← token_zero, token_of_advance h, Nat.add_zero]
  rw [before_of_advance h, hcurrent] at hline
  rw [hcurrent] at hs ⊢
  exact ⟨k, hs, hline, rfl⟩

end Window

/-- Two sequences of the same lexemes that are read to their ends. -/
structure Relayout where
  left : Window
  right : Window
  ahead_eq : left.ahead.map Token.toLexeme = right.ahead.map Token.toLexeme
  ending_eq : ∃ eof eof', left.ending = .ok eof ∧ right.ending = .ok eof' ∧
    eof.toLexeme = eof'.toLexeme

namespace Relayout

variable {L : Relayout} {n m : Nat} {w v : Window}

theorem token_eq (L : Relayout) (k : Nat) :
    (L.left.token k).toLexeme = (L.right.token k).toLexeme := by
  obtain ⟨eof, eof', hleft, hright, heof⟩ := L.ending_eq
  have hk := congrArg (·[k]?) L.ahead_eq
  rw [List.getElem?_map, List.getElem?_map] at hk
  rw [Window.token, Window.token]
  cases ht : L.left.ahead[k]? with
  | none =>
    rw [ht, Option.map_none, eq_comm, Option.map_eq_none_iff] at hk
    rw [hk, Option.getD_none, Option.getD_none, Window.endToken, Window.endToken, hleft, hright]
    exact heof
  | some a =>
    rw [ht, Option.map_some, eq_comm, Option.map_eq_some_iff] at hk
    obtain ⟨b, hb, heq⟩ := hk
    rw [hb]
    exact heq.symm

/-- Two windows that are as many tokens on in both sequences, and `n` of them at least. -/
def At (L : Relayout) (n : Nat) (w v : Window) : Prop :=
  ∃ k, n ≤ k ∧ L.left.advance k = .ok w ∧ L.right.advance k = .ok v

theorem At.mono (h : L.At n w v) (hm : m ≤ n) : L.At m w v := by
  obtain ⟨k, hk, h⟩ := h
  exact ⟨k, hm.trans hk, h⟩

theorem At.current (h : L.At n w v) : w.current.toLexeme = v.current.toLexeme := by
  obtain ⟨k, -, hw, hv⟩ := h
  rw [← Window.token_zero, ← Window.token_zero, Window.token_of_advance hw,
    Window.token_of_advance hv]
  exact L.token_eq _

theorem At.following (h : L.At n w v) : w.following.symbol = v.following.symbol := by
  obtain ⟨k, -, hw, hv⟩ := h
  rw [← Window.token_one, ← Window.token_one, Window.token_of_advance hw,
    Window.token_of_advance hv]
  exact congrArg Lexeme.symbol (L.token_eq _)

theorem At.length (h : L.At n w v) : w.ahead.length = v.ahead.length := by
  obtain ⟨k, -, hw, hv⟩ := h
  have hlength := congrArg List.length L.ahead_eq
  rw [List.length_map, List.length_map] at hlength
  rw [Window.ahead_of_advance hw, Window.ahead_of_advance hv, List.length_drop, List.length_drop,
    hlength]

/-- Both sequences go on by a token. -/
theorem At.consume (h : L.At n w v) :
    ∃ w' v', w.consume = .ok (w.current, w') ∧ v.consume = .ok (v.current, v') ∧
      L.At (n + 1) w' v' := by
  obtain ⟨k, hk, hw, hv⟩ := h
  obtain ⟨eof, eof', hleft, hright, -⟩ := L.ending_eq
  have hw' := Window.consume_of_ok ((Window.ending_of_advance hw).trans hleft)
  have hv' := Window.consume_of_ok ((Window.ending_of_advance hv).trans hright)
  refine ⟨_, _, hw', hv', k + 1, Nat.succ_le_succ hk, ?_, ?_⟩
  · rw [Window.advance_add, hw]
    show w.consume.bind (fun r => .ok r.2) = _
    rw [hw']
    rfl
  · rw [Window.advance_add, hv]
    show v.consume.bind (fun r => .ok r.2) = _
    rw [hv']
    rfl

/-- Behind a token, arguments on a new line are at two tokens of the sequence. -/
theorem splits_of_not_joined {w₀ : Window} {k : Nat} (hk : n + 1 ≤ k) (h : w₀.advance k = .ok w)
    (hs : w.current.symbol = .leftParen) (hline : ¬w.Joined) :
    w₀.Splits (w.fault .ambiguousCall) := by
  obtain ⟨j, rfl⟩ := Nat.exists_eq_add_of_le hk
  rw [Nat.add_assoc, Nat.add_comm 1 j, ← Nat.add_assoc] at h
  exact Window.splits_of_advance h hs hline

/-- The two layouts are parsed in step. What their faults have to do with each other is left out
of account, and the lines on which tokens stand have nothing to do with each other. -/
def parallel (L : Relayout) : Parallel where
  At := L.At
  Lines _ _ := True
  Faults _ _ := True
  Left := L.left.Splits
  Right := L.right.Splits
  at_mono := At.mono
  lexeme_eq := At.current
  lines _ := trivial
  following_eq := At.following
  length_eq := At.length
  consumes h := .inl h.consume
  faults _ _ := trivial
  closingFaults _ _ := trivial
  left := by
    rintro n w v ⟨k, hk, hw, -⟩ hs hline -
    exact splits_of_not_joined hk hw hs hline
  right := by
    rintro n w v ⟨k, hk, -, hv⟩ hs - hline
    exact splits_of_not_joined hk hv hs hline

end Relayout

end LuaSource
