-- SUMMARY: What holds of the trees of sources, and of the trees that have a source at all.
import LuaSource.Format.Parentheses
import LuaSource.Proofs.Grammar.Letter
import LuaSource.Proofs.Tree.Node

/-!
# Grammatical and well-formed trees

A tree is grammatical if its operators are grouped as their powers say and nothing stands
behind a `return` or a `break` in its block. It is well formed if something can be written for
each of its nodes; its operators may be nested in any way, since parentheses can be put around
their operands. The tree of a source is both.
-/

namespace LuaSource

/-! ## Statements -/

/-- Whether nothing stands behind a `return` or a `break`. -/
def lastOnly (ss : List Statement) : Prop := ∀ s ∈ ss.dropLast, s.isLast = false

/-- Others may stand behind all statements if they may stand behind the last one. -/
theorem lastOnly.isLast_eq_false {ss : List Statement} (h : lastOnly ss)
    (hlast : ∀ s ∈ ss.getLast?, s.isLast = false) : ∀ s ∈ ss, s.isLast = false := by
  obtain rfl | ⟨ts, t, rfl⟩ := ss.eq_nil_or_concat
  · exact fun s hs => absurd hs List.not_mem_nil
  · rw [List.concat_eq_append] at *
    rw [lastOnly, List.dropLast_concat] at h
    rw [List.getLast?_concat] at hlast
    intro s hs
    obtain hs | hs := List.mem_append.1 hs
    · exact h s hs
    · exact hlast s (by rw [List.mem_singleton.1 hs, Option.mem_def])

/-- Whether the lists that a source cannot leave empty are not. -/
def Statement.IsComplete : Statement → Prop
  | .assign vs es _ => vs ≠ [] ∧ es ≠ []
  | .localAssign ns _ _ => ns ≠ []
  | .conditional cs _ _ => cs ≠ []
  | .genericFor ns es _ _ => ns ≠ [] ∧ es ≠ []
  | .function f _ _ => f.path ≠ [] ∧ (f.isMethod = true → 2 ≤ f.path.length)
  | _ => True

/-! ## Expressions -/

/-- Whether the operands of an operator are ones that need no parentheses. -/
def Expression.IsGrouped : Expression → Prop
  | .binary op left right _ =>
    left.needsParensBefore op = false ∧ right.needsParensBehind op.rightPower = false
  | .unary _ operand _ => operand.needsParensBehind UnaryOperator.power = false
  | _ => True

/-- No numeral has a sign. -/
def Expression.IsUnsigned : Expression → Prop
  | .number value _ => value.negative = false
  | _ => True

/-- No numeral stands for a quotient without a value. -/
def Expression.IsNumber : Expression → Prop
  | .number value _ => value.isNaN = false
  | _ => True

/-! ## Trees -/

def grammatical : Condition where
  statements := lastOnly
  expression := Expression.IsGrouped

def wellFormed : Condition where
  statements := lastOnly
  statement := Statement.IsComplete
  expression := fun e => e.IsUnsigned ∧ e.IsNumber
  name := fun n => IsName n.text

/-- No number of a tree is NaN. -/
def numbersOnly : Condition where
  expression := Expression.IsNumber

/-- What holds of every tree that is read from a source. -/
def sound : Condition where
  statements := lastOnly
  statement := Statement.IsComplete
  expression := fun e => e.IsGrouped ∧ e.IsUnsigned
  name := fun n => IsName n.text

end LuaSource
