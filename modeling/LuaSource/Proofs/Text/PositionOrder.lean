-- SUMMARY: The order of positions, and that reading a text goes on in it.
import LuaSource.Proofs.Lexer.Stream
import Mathlib.Order.Defs.PartialOrder

/-!
# Order of positions

Positions are ordered by lines and columns, and by offsets. In one text the two orders are the same.
Here a position comes before another one if it does so in both.
-/

namespace LuaSource

namespace Position

instance : LE Position where
  le p q := p.offset ≤ q.offset ∧ (compare p q).isLE = true

theorem isLE_compare_iff {p q : Position} :
    (compare p q).isLE = true ↔ p.line < q.line ∨ p.line = q.line ∧
      (p.column < q.column ∨ p.column = q.column ∧ p.offset ≤ q.offset) := by
  have hcompare : compare p q = (compare p.line q.line).then
      ((compare p.column q.column).then (compare p.offset q.offset)) := rfl
  rw [hcompare]
  simp only [Ordering.isLE_then_iff_and, Nat.isLE_compare, Nat.compare_eq_lt]
  omega

theorem le_iff {p q : Position} :
    p ≤ q ↔ p.offset ≤ q.offset ∧
      (p.line < q.line ∨ p.line = q.line ∧ p.column ≤ q.column) := by
  show p.offset ≤ q.offset ∧ (compare p q).isLE = true ↔ _
  rw [isLE_compare_iff]
  omega

instance : Preorder Position where
  le_refl p := le_iff.2 ⟨Nat.le_refl _, .inr ⟨rfl, Nat.le_refl _⟩⟩
  le_trans p q r hpq hqr := by
    rw [le_iff] at hpq hqr ⊢
    omega

theorem eq_of_le_of_le {p q : Position} (hpq : p ≤ q) (hqp : q ≤ p) : p = q := by
  obtain ⟨line, column, offset⟩ := p
  obtain ⟨line', column', offset'⟩ := q
  simp only [le_iff] at hpq hqp
  simp only [Position.mk.injEq]
  omega

theorem le_next (p : Position) (c : Char) (cs : List Char) : p ≤ p.next c cs := by
  rw [le_iff, next_offset]
  refine ⟨Nat.le_add_right _ _, ?_⟩
  unfold next
  split
  · exact .inl (Nat.lt_succ_self _)
  · split
    · exact .inr ⟨rfl, Nat.le_refl _⟩
    · exact .inr ⟨rfl, Nat.le_succ _⟩

theorem le_after (p : Position) (cs : List Char) : p ≤ p.after cs := by
  induction cs generalizing p with
  | nil => exact le_refl p
  | cons c cs ih => exact (p.le_next c cs).trans (ih _)

end Position

theorem Span.isEmpty_eq_false_iff {s : Span} :
    s.isEmpty = false ↔ s.start.offset ≠ s.stop.offset := by
  rw [isEmpty, beq_eq_false_iff_ne]

end LuaSource
