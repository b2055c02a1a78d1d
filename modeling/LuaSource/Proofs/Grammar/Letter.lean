-- SUMMARY: Sources as words of letters, and token windows that move over such words.
import LuaSource.Grammar.Parse
import LuaSource.Numeral
import Mathlib.Computability.Language
import Mathlib.Order.CompletePartialOrder

/-!
# Letters

Of a token, the grammar looks at the lexeme and at one thing more: whether it starts on the
line on which the token before it ends. A lexeme with that mark is a letter, and what the
grammar accepts is a language of words over these letters.
-/

namespace LuaSource

/-! ## Lexemes that can be read -/

/-- A word that is a name: it is written like one and is not a keyword. -/
def IsName (text : String) : Prop :=
  (∃ c cs, text.toList = c :: cs ∧ isNameStart c = true ∧ ∀ d ∈ cs, isNameContinue d = true) ∧
    Symbol.keyword? text = none

theorem isName_x : IsName "x" := by
  refine ⟨⟨'x', [], rfl, by decide, ?_⟩, by decide⟩
  intro d hd
  cases hd

/-- What holds of every lexeme that is read from a text: names are names, and no numeral has a
sign. -/
structure Lexeme.Sound (l : Lexeme) : Prop where
  isName : l.symbol = .name → IsName (l.value.getD "")
  unsigned : l.symbol = .number →
    ∀ x, Numeral.value? (l.value.getD "") = some x → x.negative = false

/-! ## Letters -/

structure Letter extends Lexeme where
  /-- Whether it starts on the line on which the letter before it ends. -/
  joined : Bool
deriving DecidableEq

/-- The text of a name, numeral or string. -/
def Letter.content (c : Letter) : String := c.value.getD ""

/-- The letter of a token, if the token before it ends at `p`. -/
def Token.letter (p : Position) (t : Token) : Letter :=
  { t.toLexeme with joined := t.span.start.line == p.line }

@[simp] theorem Token.letter_symbol (p : Position) (t : Token) :
    (t.letter p).symbol = t.symbol := rfl

@[simp] theorem Token.letter_content (p : Position) (t : Token) :
    (t.letter p).content = t.content := rfl

@[simp] theorem Token.letter_toLexeme (p : Position) (t : Token) :
    (t.letter p).toLexeme = t.toLexeme := rfl

/-- The letters of tokens, if the token before them ends at `p`. -/
def lettersFrom (p : Position) : List Token → List Letter
  | [] => []
  | t :: ts => t.letter p :: lettersFrom t.span.stop ts

@[simp] theorem length_lettersFrom (p : Position) (ts : List Token) :
    (lettersFrom p ts).length = ts.length := by
  induction ts generalizing p with
  | nil => rfl
  | cons t ts ih => simp [lettersFrom, ih]

theorem lettersFrom_append (p : Position) (ts us : List Token) :
    lettersFrom p (ts ++ us) =
      lettersFrom p ts ++ lettersFrom ((ts.getLast?.map (·.span.stop)).getD p) us := by
  induction ts generalizing p with
  | nil => rfl
  | cons t ts ih =>
    rw [List.cons_append, lettersFrom, lettersFrom, ih, List.cons_append, List.getLast?_cons]
    cases ts.getLast? <;> rfl

def Tokens.letters (ts : Tokens) : List Letter := lettersFrom Position.start ts.tokens

/-- The symbol that a word begins with, which is the end of the source for an empty one. -/
def headSymbol : List Letter → Symbol
  | [] => .eof
  | c :: _ => c.symbol

@[simp] theorem headSymbol_nil : headSymbol [] = .eof := rfl

@[simp] theorem headSymbol_cons (c : Letter) (u : List Letter) :
    headSymbol (c :: u) = c.symbol := rfl

/-! ## Windows -/

namespace Window

def letters (w : Window) : List Letter := lettersFrom w.before w.ahead

/-- A window on tokens that were read from a text: the end of the source is told from them. -/
structure Proper (w : Window) : Prop where
  ahead : ∀ t ∈ w.ahead, t.symbol ≠ .eof ∧ t.toLexeme.Sound
  ending : ∀ t, w.ending = .ok t → t.symbol = .eof

@[simp] theorem length_letters (w : Window) : w.letters.length = w.ahead.length :=
  length_lettersFrom ..

theorem Proper.symbol_endToken {w : Window} (hw : w.Proper) : w.endToken.symbol = .eof := by
  unfold endToken
  split
  · next t h => exact hw.ending t h
  · rfl

theorem Proper.symbol_current {w : Window} (hw : w.Proper) :
    w.current.symbol = headSymbol w.letters := by
  obtain ⟨ahead, ending, before⟩ := w
  cases ahead with
  | nil => exact hw.symbol_endToken
  | cons t ts => rfl

/-- Unless the source is at its end, the current token is one of those ahead. -/
theorem Proper.ahead_eq {w : Window} (hw : w.Proper) (h : w.current.symbol ≠ .eof) :
    w.ahead = w.current :: w.ahead.tail := by
  obtain ⟨ahead, ending, before⟩ := w
  cases ahead with
  | nil => exact absurd hw.symbol_endToken h
  | cons t ts => rfl

theorem Proper.ahead_eq_nil {w : Window} (hw : w.Proper) (h : w.current.symbol = .eof) :
    w.ahead = [] := by
  cases hahead : w.ahead with
  | nil => rfl
  | cons t ts =>
    have hcurrent : w.current = t := by
      rw [current, hahead]
      rfl
    rw [hcurrent] at h
    exact absurd h (hw.ahead t (by simp [hahead])).1

theorem Proper.sound_current {w : Window} (hw : w.Proper) (h : w.current.symbol ≠ .eof) :
    w.current.toLexeme.Sound := by
  refine (hw.ahead w.current ?_).2
  rw [hw.ahead_eq h]
  exact List.mem_cons_self

/-! ## Moving on -/

/-- The window `w'` comes behind the word `u` in `w`. -/
structure Advance (w : Window) (u : List Letter) (w' : Window) : Prop where
  letters : w.letters = u ++ w'.letters
  ahead : w'.ahead = w.ahead.drop u.length
  ending : w'.ending = w.ending
  proper : w'.Proper

theorem Advance.refl {w : Window} (hw : w.Proper) : w.Advance [] w := ⟨rfl, rfl, rfl, hw⟩

theorem Advance.trans {w w' w'' : Window} {u v : List Letter} (h : w.Advance u w')
    (h' : w'.Advance v w'') : w.Advance (u ++ v) w'' :=
  ⟨by rw [h.letters, h'.letters, List.append_assoc],
    by rw [h'.ahead, h.ahead, List.drop_drop, List.length_append],
    h'.ending.trans h.ending, h'.proper⟩

theorem Advance.length {w w' : Window} {u : List Letter} (h : w.Advance u w') :
    w.ahead.length = u.length + w'.ahead.length := by
  have hl := congrArg List.length h.letters
  simpa using hl

/-- Taking the current token, unless it is the end of the source. -/
theorem consume_advance {w w' : Window} {t : Token} (hw : w.Proper)
    (hs : w.current.symbol ≠ .eof) (h : w.consume = .ok (t, w')) :
    t = w.current ∧ w.Advance [t.letter w.before] w' := by
  unfold consume at h
  split at h
  · cases h
  · cases h
    have hc := hw.ahead_eq hs
    refine ⟨rfl, ?_, List.drop_one.symm, rfl, ?_, hw.ending⟩
    · conv_lhs => rw [letters, hc]
      rfl
    · intro t ht
      exact hw.ahead t (List.mem_of_mem_tail ht)

/-- Where all tokens can be read, the current one can be taken. -/
theorem consume_of_letters {w : Window} {c : Letter} {v : List Letter} {eof : Token}
    (he : w.ending = .ok eof) (h : w.letters = c :: v) :
    ∃ t w', w.consume = .ok (t, w') ∧ t = w.current ∧ t.letter w.before = c ∧
      w'.letters = v ∧ w'.ending = w.ending := by
  obtain ⟨ahead, ending, before⟩ := w
  cases ahead with
  | nil => cases h
  | cons t ts =>
    have hl : t.letter before :: lettersFrom t.span.stop ts = c :: v := h
    injection hl with hc hv
    exact ⟨t, ⟨ts, ending, t.span.stop⟩, consume_of_ok he, rfl, hc, hv, rfl⟩

end Window

end LuaSource
