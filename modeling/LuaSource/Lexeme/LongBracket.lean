-- SUMMARY: Long brackets: strings and comments in which nothing is escaped.
import LuaSource.Lexeme.Scan
import LuaSource.Text.CharClass

/-!
# Long brackets

A long bracket of level `n` opens with `[`, `n` equals signs and `[`. It closes at the
first `]`, `n` equals signs and `]`, and all that stands between is its body.
-/

namespace LuaSource.LongBracket

def opener (level : Nat) : List Char := '[' :: (List.replicate level '=' ++ ['['])

def closer (level : Nat) : List Char := ']' :: (List.replicate level '=' ++ [']'])

@[simp] theorem length_opener (level : Nat) : (opener level).length = level + 2 := by
  simp [opener]

@[simp] theorem length_closer (level : Nat) : (closer level).length = level + 2 := by
  simp [closer]

/-- How many equals signs a text begins with. -/
def equalsRun (cs : List Char) : Nat := (cs.takeWhile (· == '=')).length

/-- The level of the long bracket that a text opens with. -/
def opened? : List Char → Option Nat
  | [] => none
  | c :: cs =>
    if c = '[' ∧ (cs.drop (equalsRun cs)).head? = some '[' then some (equalsRun cs) else none

theorem equalsRun_replicate_append (n : Nat) (cs : List Char) (h : cs.head? ≠ some '=') :
    equalsRun (List.replicate n '=' ++ cs) = n := by
  induction n with
  | zero =>
    cases cs with
    | nil => rfl
    | cons c cs =>
      have hc : c ≠ '=' := by simpa using h
      simp [equalsRun, hc]
  | succ n ih => simpa [equalsRun, List.replicate_succ] using ih

theorem opened?_opener_append (level : Nat) (cs : List Char) :
    opened? (opener level ++ cs) = some level := by
  have h := equalsRun_replicate_append level ('[' :: cs) (by simp)
  simp [opener, opened?, h]


-- ---------------------------------------------------------------------------
-- The body
-- ---------------------------------------------------------------------------

/-- How many characters stand before the first occurrence of a word, `n` of them already passed. -/
def before? (word : List Char) (n : Nat) : List Char → Option Nat
  | [] => if word.isEmpty then some n else none
  | c :: cs => if word.isPrefixOf (c :: cs) then some n else before? word (n + 1) cs

theorem before?_add (word : List Char) (n : Nat) (cs : List Char) :
    before? word n cs = (before? word 0 cs).map (n + ·) := by
  induction cs generalizing n with
  | nil => by_cases h : word.isEmpty <;> simp [before?, h]
  | cons c cs ih =>
    by_cases h : word.isPrefixOf (c :: cs)
    · simp [before?, h]
    · simp only [before?, h, Bool.false_eq_true, ↓reduceIte]
      rw [ih (n + 1), ih (0 + 1), Option.map_map]
      congr 1
      funext k
      simp only [Function.comp_apply]
      omega

/-- A newline right after the opener is not part of the value, and every other one is a `\n`. -/
def value (body : List Char) : List Char := unifyNewlines (body.drop (newlineSize body))

/-- The rest of a long bracket of a level, from behind its opener to the end of its closer. -/
def read? (level : Nat) (cs : List Char) : Option (Scan (List Char)) :=
  (before? (closer level) 0 cs).map fun n => ⟨n + (level + 2), value (cs.take n)⟩

end LuaSource.LongBracket
