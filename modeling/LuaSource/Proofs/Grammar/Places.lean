-- SUMMARY: Rules for parsers whose results stand where their spans say.
import LuaSource.Proofs.Grammar.Placing

/-!
# Parsers that place their results

A parser places its results if the tokens that it takes for a result are a word that the result
is placed by. The rules follow a parser from token to token: `K` is what has been taken so far,
from the window `w₀` up to the window `w` at which the parser goes on.
-/

namespace LuaSource

open Placing

namespace Window

variable {w₀ w : Window} {K L : Language Mark} {c : Mark} {s : Symbol} {a b : Span}

theorem Over.spanned (h : w₀.Over L w) (hL : [] ∉ L) (hstart : a.start = w₀.current.span.start)
    (hstop : a.stop = w.before) : w₀.Over (spanned a L) w := by
  obtain ⟨u, hu, h⟩ := h
  refine ⟨u, ⟨hu, ?_⟩, h⟩
  obtain ⟨c, hc⟩ : ∃ c, u.head? = some c := by
    cases u with
    | nil => exact absurd hu hL
    | cons c u => exact ⟨c, rfl⟩
  obtain ⟨d, hd⟩ : ∃ d, u.getLast? = some d := by
    cases hd : u.getLast? with
    | none =>
      rw [List.getLast?_eq_none_iff.1 hd] at hc
      cases hc
    | some d => exact ⟨d, rfl⟩
  refine ⟨⟨c, hc, (h.head c hc).trans hstart.symm⟩, d, hd, ?_⟩
  rw [hstop, h.before, hd]
  rfl

/-- What begins with the token at `w₀` and ends with a span that has just been taken. -/
theorem Over.between (h : w₀.Over (K * L) w) (hL : [] ∉ L) (hstop : b.stop = w.before) :
    w₀.Over (Placing.spanned (Span.between w₀.current.span b) (K * L)) w :=
  h.spanned (nil_notMem_mul hL) rfl hstop

theorem Takes.exactly (h : w₀.Takes [c] w) : w₀.Over (Placing.exactly c) w := ⟨[c], rfl, h⟩

theorem Over.symbol (h : w₀.Over (K * exactly c) w) (hc : c.symbol = s) :
    w₀.Over (K * Placing.symbol s) w := by
  refine h.mono ?_
  gcongr
  exact exactly_le_symbol hc

theorem Over.behind {M : Mark → Language Mark} {w' : Window} (h : w₀.Over (K * exactly c) w)
    (hc : c.symbol = s) (h' : w.Over (M c) w') : w₀.Over (K * Placing.behind s M) w' := by
  refine (h.mul h').mono ?_
  rw [mul_assoc]
  gcongr
  exact exactly_mul_le_behind hc M

end Window

namespace Parse

open Parsing

variable {α β : Type} {w₀ w : Window} {K : Language Mark} {N : α → Language Mark}
  {p q : Parse α} {s : Symbol}

/-- Whatever result the parser gives at `w`, it and what is left have the property `S`. -/
def Ensures (p : Parse α) (w : Window) (S : α → Window → Prop) : Prop :=
  ∀ a w', p w = .ok (a, w') → S a w'

/-- The tokens from `w₀` up to where the parser stops are a word that its result is placed by. -/
def Places (p : Parse α) (w₀ w : Window) (N : α → Language Mark) : Prop :=
  p.Ensures w fun a w' => w₀.Over (N a) w'

namespace Places

theorem congr (h : p w = q w) (hq : q.Places w₀ w N) : p.Places w₀ w N :=
  fun a w' hp => hq a w' (h.symm.trans hp)

theorem pure {a : α} (h : w₀.Over (N a) w) : (pure a : Parse α).Places w₀ w N := by
  intro a w' hp
  cases hp
  exact h

theorem fail {fault : String → ParseFault} : (fail fault : Parse α).Places w₀ w N := by
  intro a w' hp
  cases hp

theorem bind {f : α → Parse β} {N : β → Language Mark} {L : α → Language Mark}
    (hw : w₀.Over K w) (hp : p.Places w w L)
    (hf : ∀ a w', p w = .ok (a, w') → w₀.Over (K * L a) w' → (f a).Places w₀ w' N) :
    (p >>= f).Places w₀ w N := by
  intro b w'' h
  obtain ⟨a, w', h₁, h₂⟩ := bind_eq_ok_iff.1 h
  exact hf a w' h₁ (hw.mul (hp a w' h₁)) b w'' h₂

/-- A parser behind a token that its results depend on. -/
theorem behind {f : α → Parse β} {N : β → Language Mark} {L : α → Mark → Language Mark} {c : Mark}
    (hw : w₀.Over (K * exactly c) w) (hc : c.symbol = s) (hp : p.Places w w (L · c))
    (hf : ∀ a w', p w = .ok (a, w') → w₀.Over (K * Placing.behind s (L a)) w' →
      (f a).Places w₀ w' N) :
    (p >>= f).Places w₀ w N := by
  intro b w'' h
  obtain ⟨a, w', h₁, h₂⟩ := bind_eq_ok_iff.1 h
  exact hf a w' h₁ (hw.behind hc (hp a w' h₁)) b w'' h₂

/-! ## Single tokens -/

theorem current {f : Token → Parse α} (h : (f w.current).Places w₀ w N) :
    (current >>= f).Places w₀ w N := .congr (q := f w.current) rfl h

theorem symbol {f : Symbol → Parse α} (h : (f w.current.symbol).Places w₀ w N) :
    (symbol >>= f).Places w₀ w N := .congr (q := f w.current.symbol) rfl h

theorem followingSymbol {f : Symbol → Parse α} (h : (f w.following.symbol).Places w₀ w N) :
    (followingSymbol >>= f).Places w₀ w N := .congr (q := f w.following.symbol) rfl h

theorem onSameLine {f : Bool → Parse α} (h : (f w.mark.joined).Places w₀ w N) :
    (onSameLine >>= f).Places w₀ w N := .congr (q := f w.mark.joined) rfl h

/-- Taking the current token. -/
theorem takeMark {f : Token → Parse α} (hw : w₀.Over K w) (hs : w.current.symbol ≠ .eof)
    (hf : ∀ w', w.mark.span.stop = w'.before → w'.current.span.start = w.mark.next →
      w₀.Over (K * exactly w.mark) w' → (f w.current).Places w₀ w' N) :
    (consume >>= f).Places w₀ w N := by
  intro a w'' h
  obtain ⟨t, w', h₁, h₂⟩ := bind_eq_ok_iff.1 h
  obtain ⟨rfl, htakes, hnext⟩ := Window.consume_takes hw.proper hs h₁
  exact hf w' htakes.before.symm hnext (hw.mul htakes.exactly) a w'' h₂

/-- Taking a token whose symbol is known. -/
theorem take {f : Token → Parse α} (hw : w₀.Over K w) (hs : w.current.symbol = s) (hne : s ≠ .eof)
    (hf : ∀ w', w.current.span.stop = w'.before → w₀.Over (K * Placing.symbol s) w' →
      (f w.current).Places w₀ w' N) :
    (consume >>= f).Places w₀ w N :=
  takeMark hw (hs ▸ hne) fun w' hstop _ hw' => hf w' hstop (hw'.symbol hs)

theorem expectMark {f : Token → Parse α} (hw : w₀.Over K w) (hne : s ≠ .eof)
    (hf : ∀ w', w.mark.symbol = s → w.mark.span.stop = w'.before →
      w'.current.span.start = w.mark.next → w₀.Over (K * exactly w.mark) w' →
      (f w.current).Places w₀ w' N) :
    (expect s >>= f).Places w₀ w N := by
  by_cases hs : w.current.symbol = s
  · refine .congr (q := consume >>= f) ?_ (takeMark hw (hs ▸ hne) fun w' hstop hnext hw' =>
      hf w' hs hstop hnext hw')
    rw [bind_apply, bind_apply, expect_of_eq hs]
    rfl
  · intro a w' h
    rw [bind_apply, expect_of_ne hs] at h
    cases h

theorem expect {f : Token → Parse α} (hw : w₀.Over K w) (hne : s ≠ .eof)
    (hf : ∀ w', w.current.span.stop = w'.before → w₀.Over (K * Placing.symbol s) w' →
      (f w.current).Places w₀ w' N) :
    (expect s >>= f).Places w₀ w N :=
  expectMark hw hne fun w' hs hstop _ hw' => hf w' hstop (hw'.symbol hs)

theorem closing {f : Token → Parse α} {closer opener : Symbol} {line : Nat} (hw : w₀.Over K w)
    (hne : closer ≠ .eof)
    (hf : ∀ w', w.current.span.stop = w'.before → w₀.Over (K * Placing.symbol closer) w' →
      (f w.current).Places w₀ w' N) :
    (expectClosing closer opener line >>= f).Places w₀ w N := by
  have heq : (expectClosing closer opener line >>= f) w =
      ((if w.current.symbol = closer then consume
        else if w.current.span.start.line = line then Parsing.fail (.expected closer.spelling)
        else Parsing.fail (.unclosed closer.spelling opener.spelling line)) >>= f) w := rfl
  refine .congr heq ?_
  by_cases hs : w.current.symbol = closer
  · rw [if_pos hs]
    exact take hw hs hne hf
  · rw [if_neg hs]
    intro a w' h
    obtain ⟨t, w'', h₁, -⟩ := bind_eq_ok_iff.1 h
    split at h₁ <;> cases h₁

theorem accept {f : Option Token → Parse α} (hw : w₀.Over K w) (hne : s ≠ .eof)
    (hsome : ∀ w', w.mark.symbol = s → w'.current.span.start = w.mark.next →
      w₀.Over (K * exactly w.mark) w' → (f (some w.current)).Places w₀ w' N)
    (hnone : (f none).Places w₀ w N) :
    (accept s >>= f).Places w₀ w N := by
  by_cases hs : w.current.symbol = s
  · refine .congr (q := consume >>= fun t => f (some t)) ?_ (takeMark hw (hs ▸ hne)
      fun w' _ hnext hw' => hsome w' hs hnext hw')
    rw [bind_apply, accept_of_eq hs, bind_apply]
    show (w.consume.bind _).bind _ = w.consume.bind _
    cases w.consume <;> rfl
  · refine .congr (q := f none) ?_ hnone
    rw [bind_apply, accept_of_ne hs]
    rfl

theorem expectName (hw : w.Proper) : (expectName : Parse _).Places w w Placing.name := by
  intro n w' h
  obtain ⟨t, w'', h₁, h₂⟩ := bind_eq_ok_iff.1 h
  cases h₂
  by_cases hs : w.current.symbol = .name
  · rw [expect_of_eq hs] at h₁
    have hne : w.current.symbol ≠ .eof := by simp [hs]
    obtain ⟨rfl, htakes, -⟩ := Window.consume_takes hw hne h₁
    exact ⟨[w.mark], ⟨⟨w.mark.toLetter, ⟨hs, rfl⟩, rfl⟩, ⟨w.mark, rfl, rfl⟩, w.mark, rfl, rfl⟩,
      htakes⟩
  · rw [expect_of_ne hs] at h₁
    cases h₁

/-! ## Repetition -/

/-- What a repetition gives, if each of its steps keeps the invariant `I` or gives a result with
the property `R`. -/
theorem loop_ensures {step : α → Parse (α ⊕ β)} {I : α → Window → Prop} {R : β → Window → Prop}
    (hstep : ∀ a w, I a w → (step a).Ensures w (Sum.elim I R)) {a : α} (hI : I a w) :
    (loop step a).Ensures w R := by
  suffices halong : ∀ (ts : List Token) (a : α) (w : Window), I a w →
      (loopAlong step ts a).Ensures w R from halong w.ahead a w hI
  intro ts
  induction ts with
  | nil =>
    intro a w hI b w' h
    obtain ⟨r, w'', h₁, h₂⟩ := bind_eq_ok_iff.1 h
    have hr := hstep a w hI r w'' h₁
    cases r with
    | inl a' => cases h₂
    | inr b' =>
      cases h₂
      exact hr
  | cons t ts ih =>
    intro a w hI b w' h
    obtain ⟨r, w'', h₁, h₂⟩ := bind_eq_ok_iff.1 h
    have hr := hstep a w hI r w'' h₁
    cases r with
    | inl a' => exact ih a' w'' hr b w' h₂
    | inr b' =>
      cases h₂
      exact hr

theorem loop {step : α → Parse (α ⊕ β)} {I : α → Language Mark} {N : β → Language Mark} {a : α}
    (hw : w₀.Over (I a) w)
    (hstep : ∀ a w, w₀.Over (I a) w → (step a).Places w₀ w (Sum.elim I N)) :
    (loop step a).Places w₀ w N := by
  refine loop_ensures (I := fun a w => w₀.Over (I a) w) ?_ hw
  intro a w hw r w' h
  have hr := hstep a w hw r w' h
  cases r <;> exact hr

/-- The items behind a first one, each with its separator before it. -/
theorem separated {separator : Symbol} {item : Token → Parse α} {L : α → Mark → Language Mark}
    {first : α} (hne : separator ≠ .eof) (hw : w.Proper)
    (hitem : ∀ (c : Mark) (w : Window), w.Proper → (item c.toToken).Places w w (L · c)) :
    (Parse.separated separator item first).Ensures w fun as w' => ∃ rest, as = first :: rest ∧
      w.Over (rest.map fun a => Placing.behind separator (L a)).prod w' := by
  -- The items so far stand in reverse order, the first one at the end.
  refine loop_ensures (I := fun items v => ∃ rest, items = rest ++ [first] ∧
    w.Over (rest.reverse.map fun a => Placing.behind separator (L a)).prod v) ?_
    ⟨[], rfl, .refl hw⟩
  rintro items v ⟨rest, rfl, hv⟩ r v' hstep
  by_cases hs : v.current.symbol = separator
  · obtain ⟨token, v₁, h₁, h₂⟩ := bind_eq_ok_iff.1 hstep
    rw [accept_of_eq hs] at h₁
    cases hc : v.consume with
    | error e =>
      rw [hc] at h₁
      cases h₁
    | ok taken =>
      rw [hc] at h₁
      cases h₁
      obtain ⟨ht, htakes, -⟩ := Window.consume_takes hv.proper (hs ▸ hne) hc
      obtain ⟨a, v₂, h₃, h₄⟩ := bind_eq_ok_iff.1 h₂
      cases h₄
      rw [ht] at h₃
      have hitem := hitem v.mark _ htakes.proper a _ h₃
      refine ⟨a :: rest, rfl, ?_⟩
      rw [List.reverse_cons, List.map_append, List.prod_append, List.map_singleton,
        List.prod_singleton]
      exact (hv.mul htakes.exactly).behind hs hitem
  · obtain ⟨token, v₁, h₁, h₂⟩ := bind_eq_ok_iff.1 hstep
    rw [accept_of_ne hs] at h₁
    cases h₁
    cases h₂
    exact ⟨rest.reverse, by rw [List.reverse_append]; rfl, hv⟩

/-- What comes behind a list with separators. -/
theorem separatedThen {separator : Symbol} {item : Token → Parse α} {L : α → Mark → Language Mark}
    {f : List α → Parse β} {N : β → Language Mark} {first : α} (hw : w₀.Over K w)
    (hne : separator ≠ .eof)
    (hitem : ∀ (c : Mark) (w : Window), w.Proper → (item c.toToken).Places w w (L · c))
    (hf : ∀ rest w', w₀.Over (K * (rest.map fun a => Placing.behind separator (L a)).prod) w' →
      (f (first :: rest)).Places w₀ w' N) :
    (Parse.separated separator item first >>= f).Places w₀ w N := by
  intro b w'' h
  obtain ⟨as, w', h₁, h₂⟩ := bind_eq_ok_iff.1 h
  obtain ⟨rest, rfl, hrest⟩ := separated hne hw.proper hitem as w' h₁
  exact hf rest w' (hw.mul hrest) b w'' h₂

end Places

end Parse

end LuaSource
