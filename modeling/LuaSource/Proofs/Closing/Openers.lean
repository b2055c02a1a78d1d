-- SUMMARY: The openers that tokens leave unclosed, read off with a stack.
import LuaSource.Diagnostic
import LuaSource.Token

/-!
# Openers and closers

A parenthesis, a brace or a keyword opens what a closer of its own has to end. Read from left to
right with a stack, the tokens of a source tell at each place which openers are not closed yet. The
`do` behind the head of a `while` or `for` belongs to this head, and opens nothing.
-/

namespace LuaSource

namespace Symbol

/-- The symbol that closes what a symbol opens. -/
def closer? : Symbol → Option Symbol
  | leftParen => some rightParen
  | leftBrace => some rightBrace
  | kwIf | kwWhile | kwFor | kwFunction | kwDo => some kwEnd
  | kwRepeat => some kwUntil
  | _ => none

def closers : List Symbol := [rightParen, rightBrace, kwEnd, kwUntil]

/-- Whether there is a head with a `do` behind the symbol. -/
def hasHead : Symbol → Bool
  | kwWhile | kwFor => true
  | _ => false

/-- A symbol that neither opens nor closes anything. -/
def isNeutral (s : Symbol) : Bool := s.closer?.isNone && !closers.contains s

/-- Symbols behind which there is no statement of the same block. -/
def blockEnds : List Symbol := [kwElse, kwElseif, kwEnd, kwUntil, eof]

theorem mem_closers_of_closer? {s c : Symbol} (h : s.closer? = some c) : c ∈ closers := by
  cases s <;> cases h <;> decide

theorem closer?_of_mem_closers {c : Symbol} (h : c ∈ closers) : c.closer? = none := by
  revert c
  decide

end Symbol

/-- A token that opens something, which is not closed yet. -/
structure Opener where
  token : Token
  /-- Whether the next `do` belongs to the head behind the token. -/
  inHead : Bool

namespace Opener

/-- Put an opener on the stack. -/
def push (os : List Opener) (t : Token) : List Opener :=
  if t.symbol.closer?.isSome then ⟨t, t.symbol.hasHead⟩ :: os else os

/-- The openers that are not closed behind one more token, with the innermost one first. -/
def read (os : List Opener) (t : Token) : List Opener :=
  match os with
  | [] => push [] t
  | o :: os =>
    if o.inHead ∧ t.symbol = .kwDo then ⟨o.token, false⟩ :: os
    else if o.token.symbol.closer? = some t.symbol then os
    else push (o :: os) t

/-- The fault of a token that stands where the opener had to be closed. It tells about the opener if
this is on another line. -/
def fault (o : Opener) (t : Token) : ParseFault :=
  if t.span.start.line = o.token.span.start.line then
    .expected (o.token.symbol.closer?.getD .eof).spelling t.text
  else
    .unclosed (o.token.symbol.closer?.getD .eof).spelling o.token.symbol.spelling
      o.token.span.start.line t.text

/-- No `do` is awaited for a head. -/
def OutsideHead (os : List Opener) : Prop := ∀ o ∈ os.head?, o.inHead = false

variable {os : List Opener} {o : Opener} {t : Token} {c : Symbol}

theorem read_opener (hc : t.symbol.closer? = some c) (hdo : t.symbol = .kwDo → OutsideHead os) :
    read os t = ⟨t, t.symbol.hasHead⟩ :: os := by
  have hpush : push os t = ⟨t, t.symbol.hasHead⟩ :: os := by
    rw [push, hc]
    rfl
  cases os with
  | nil => exact hpush
  | cons o os =>
    rw [read, if_neg, if_neg, hpush]
    · intro hclose
      have hnone := Symbol.closer?_of_mem_closers (Symbol.mem_closers_of_closer? hclose)
      rw [hnone] at hc
      cases hc
    · rintro ⟨hhead, hsymbol⟩
      rw [hdo hsymbol o rfl] at hhead
      cases hhead

theorem read_closer (hc : o.token.symbol.closer? = some t.symbol) : read (o :: os) t = os := by
  rw [read, if_neg, if_pos hc]
  rintro ⟨-, hdo⟩
  have hmem := Symbol.mem_closers_of_closer? hc
  rw [hdo] at hmem
  exact absurd hmem (by decide)

theorem read_neutral (ht : t.symbol.isNeutral = true) : read os t = os := by
  obtain ⟨hnone, hclosers⟩ := Bool.and_eq_true_iff.1 ht
  have hpush : ∀ os, push os t = os := fun os => by
    rw [push, Option.isNone_iff_eq_none.1 hnone]
    rfl
  cases os with
  | nil => exact hpush []
  | cons o os =>
    rw [read, if_neg, if_neg, hpush]
    · intro hclose
      have hmem := Symbol.mem_closers_of_closer? hclose
      simp [hmem] at hclosers
    · rintro ⟨-, hdo⟩
      rw [hdo] at hnone
      cases hnone

theorem read_head (ht : t.symbol = .kwDo) (ho : o.inHead = true) :
    read (o :: os) t = ⟨o.token, false⟩ :: os := by
  rw [read, if_pos ⟨ho, ht⟩]

theorem token_of_mem_push (h : o ∈ push os t) :
    o.token = t ∧ t.symbol.closer?.isSome = true ∨ o.token ∈ os.map Opener.token := by
  unfold push at h
  split at h
  · next hc =>
    rcases List.mem_cons.1 h with rfl | h
    · exact .inl ⟨rfl, hc⟩
    · exact .inr (List.mem_map_of_mem h)
  · exact .inr (List.mem_map_of_mem h)

theorem token_of_mem_read (h : o ∈ read os t) :
    o.token = t ∧ t.symbol.closer?.isSome = true ∨ o.token ∈ os.map Opener.token := by
  unfold read at h
  split at h
  · exact token_of_mem_push h
  · split at h
    · rcases List.mem_cons.1 h with rfl | h
      · exact .inr List.mem_cons_self
      · exact .inr (List.mem_cons_of_mem _ (List.mem_map_of_mem h))
    · split at h
      · exact .inr (List.mem_cons_of_mem _ (List.mem_map_of_mem h))
      · exact token_of_mem_push h

/-- Only tokens that are read and have a closer become openers. -/
theorem token_of_mem_foldl_read {ts : List Token} (h : o ∈ ts.foldl read os) :
    o.token ∈ ts ∧ o.token.symbol.closer?.isSome = true ∨ o.token ∈ os.map Opener.token := by
  induction ts generalizing os with
  | nil => exact .inr (List.mem_map_of_mem h)
  | cons t ts ih =>
    rcases ih h with ⟨ho, hc⟩ | ho
    · exact .inl ⟨List.mem_cons_of_mem t ho, hc⟩
    · obtain ⟨o', ho', heq⟩ := List.mem_map.1 ho
      rcases token_of_mem_read ho' with ⟨ht, hc⟩ | ho'
      · rw [← heq, ht]
        exact .inl ⟨List.mem_cons_self, hc⟩
      · exact .inr (heq ▸ ho')

end Opener

/-- The openers among some tokens that are not closed by them, with the innermost one first. -/
def unclosed (ts : List Token) : List Token := (ts.foldl Opener.read []).map Opener.token

-- The `do` belongs to the `while`, and the parentheses between them are closed.
example : (unclosed ([.kwWhile, .leftParen, .name, .rightParen, .kwDo, .kwRepeat].map fun s =>
    ⟨⟨s, none⟩, Span.empty .start⟩)).map (·.symbol) = [.kwRepeat, .kwWhile] := rfl

end LuaSource
