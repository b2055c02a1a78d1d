-- SUMMARY: Specifications of the parsers that take single tokens, and of repetition.
import LuaSource.Proofs.Grammar.Meets

/-!
# Tokens and repetition

What the parsers for single tokens do, each as a rule for the sequences that they stand in,
and what a repetition does if each of its steps keeps an invariant.
-/

namespace LuaSource

namespace Window

theorem consume_error {w : Window} {e : Located ParseFault} (h : w.consume = .error e) :
    e.cause.isGrammatical = false := by
  unfold consume at h
  split at h
  · cases h
    rfl
  · cases h

/-- The token behind the current one becomes the current one. -/
theorem current_of_consume {w w' : Window} {t : Token} (h : w.consume = .ok (t, w')) :
    w'.current = w.following := by
  obtain ⟨ahead, ending, before⟩ := w
  unfold consume at h
  split at h
  · cases h
  · cases h
    rcases ahead with _ | ⟨_, _ | ⟨_, _⟩⟩ <;> rfl

theorem Reads.take {w w' : Window} {t : Token} {p : Letter → Prop} (hw : w.Proper)
    (hs : w.current.symbol ≠ .eof) (hp : p (w.current.letter w.before))
    (h : w.consume = .ok (t, w')) : t = w.current ∧ w.Reads (Spelling.letter p) w' := by
  obtain ⟨ht, hadv⟩ := consume_advance hw hs h
  rw [ht] at hadv
  exact ⟨ht, [w.current.letter w.before], ⟨_, hp, rfl⟩, hadv⟩

end Window

namespace Parse

open Parsing

variable {α β : Type} {w₀ : Window} {K : Language Letter} {Φ : Window → Prop}
  {N : α → Language Letter} {Q : α → Prop} {S : α → Window → Prop}

/-! ## Single tokens -/

/-- Taking the current token, whose lexeme is one of those in `p`. -/
theorem Meets.take {w : Window} {f : Token → Parse α} {p : Letter → Prop} (hw : w₀.Reads K w)
    (hs : w.current.symbol ≠ .eof) (hp : p (w.current.letter w.before))
    (hf : ∀ w', w₀.Reads (K * Spelling.letter p) w' → (f w.current).Meets w₀ w' N Q S) :
    (consume >>= f).Meets w₀ w N Q S := by
  constructor
  · intro a w'' h
    obtain ⟨t, w', h₁, h₂⟩ := bind_eq_ok_iff.1 h
    obtain ⟨rfl, hr⟩ := Window.Reads.take hw.proper hs hp h₁
    exact (hf w' (hw.mul hr)).ok h₂
  · intro e h hg
    rcases bind_eq_error_iff.1 h with h₁ | ⟨t, w', h₁, h₂⟩
    · rw [Window.consume_error h₁] at hg
      cases hg
    · obtain ⟨rfl, hr⟩ := Window.Reads.take hw.proper hs hp h₁
      exact (hf w' (hw.mul hr)).fault h₂ hg

/-- Taking a token of which something is known. -/
theorem Follows.takeLetter {f : Token → Parse α} {p : Token → Letter → Prop}
    (hc : Completes K N Q)
    (hΦ : ∀ w, Φ w → w.current.symbol ≠ .eof ∧ p w.current (w.current.letter w.before))
    (hf : ∀ t, (f t).Follows w₀ (K * Spelling.letter (p t)) (fun _ => ∃ w, Φ w) N Q S) :
    (consume >>= f).Follows w₀ K Φ N Q S where
  completes := hc
  meets w hr hw :=
    .take hr (hΦ w hw).1 (hΦ w hw).2 fun w' hr' => (hf _).meets w' hr' ⟨w, hw⟩

/-- Taking a token whose symbol is known. -/
theorem Follows.take {f : Token → Parse α} {s : Symbol} (hs : s.isWritten = true)
    (hΦ : ∀ w, Φ w → w.current.symbol = s)
    (hf : ∀ t, (f t).Follows w₀ (K * Spelling.symbol s) (fun _ => ∃ w, Φ w) N Q S) :
    (consume >>= f).Follows w₀ K Φ N Q S := by
  refine .takeLetter (p := fun _ c => c.symbol = s) ?_ (fun w hw => ⟨?_, hΦ w hw⟩) hf
  · exact (hf (Token.eof .start)).completes.of_mul (.symbol hs)
  · rw [hΦ w hw]
    rintro rfl
    cases hs

theorem fail_meets {w : Window} {fault : String → ParseFault}
    (h : ∃ a, Q a ∧ HasPlain (N a)) (hw : w.Proper) :
    (fail fault : Parse α).Meets w w N Q S where
  ok h := by cases h
  fault he _ := by
    cases he
    obtain ⟨a, hq, hN⟩ := h
    exact ⟨a, w, .refl hw hN, hq, rfl⟩

theorem consume_meets {w : Window} {s : Symbol} (hs : s.isWritten = true) (hw : w.Proper)
    (h : w.current.symbol = s) :
    (consume : Parse _).Meets w w (fun _ => Spelling.symbol s) (fun _ => True)
      (fun _ _ => True) where
  ok {t w'} h₁ := by
    have hne : w.current.symbol ≠ .eof := by
      rw [h]
      rintro rfl
      cases hs
    obtain ⟨-, hr⟩ := Window.Reads.take (p := (·.symbol = s)) hw hne h h₁
    exact ⟨hr, trivial, trivial⟩
  fault h₁ hg := by
    rw [Window.consume_error h₁] at hg
    cases hg

theorem expect_meets {w : Window} {s : Symbol} (hs : s.isWritten = true) (hw : w.Proper) :
    (expect s : Parse _).Meets w w (fun _ => Spelling.symbol s) (fun _ => True)
      (fun _ _ => True) := by
  by_cases h : w.current.symbol = s
  · exact .congr (expect_of_eq h) (consume_meets hs hw h)
  · constructor
    · intro t w' h₁
      rw [expect_of_ne h] at h₁
      cases h₁
    · intro e h₁ _
      rw [expect_of_ne h] at h₁
      cases h₁
      exact ⟨Token.eof .start, w, .refl hw (.symbol hs), trivial, rfl⟩

theorem expectClosing_meets {w : Window} {closer opener : Symbol} {line : Nat}
    (hs : closer.isWritten = true) (hw : w.Proper) :
    (expectClosing closer opener line : Parse _).Meets w w (fun _ => Spelling.symbol closer)
      (fun _ => True) (fun _ _ => True) := by
  have hd : ∃ t : Token, True ∧ HasPlain ((fun _ => Spelling.symbol closer) t) :=
    ⟨Token.eof .start, trivial, .symbol hs⟩
  have h : (expectClosing closer opener line : Parse Token) w =
      (if w.current.symbol = closer then consume
        else if w.current.span.start.line = line then fail (.expected closer.spelling)
        else fail (.unclosed closer.spelling opener.spelling line) : Parse Token) w := rfl
  refine .congr h ?_
  by_cases hc : w.current.symbol = closer
  · rw [if_pos hc]
    exact consume_meets hs hw hc
  · rw [if_neg hc]
    split
    · exact fail_meets hd hw
    · exact fail_meets hd hw

theorem expectName_meets {w : Window} (hw : w.Proper) :
    (expectName : Parse _).Meets w w Spelling.name (fun n => IsName n.text)
      (fun _ w' => w'.current = w.following) := by
  have hd : ∃ n : Name, IsName n.text ∧ HasPlain (Spelling.name n) :=
    ⟨⟨"x", default⟩, isName_x, .name⟩
  by_cases h : w.current.symbol = .name
  · have hne : w.current.symbol ≠ .eof := by simp [h]
    constructor
    · intro n w' h₁
      obtain ⟨t, w'', h₂, h₃⟩ := bind_eq_ok_iff.1 h₁
      rw [expect_of_eq h] at h₂
      obtain ⟨rfl, hr⟩ := Window.Reads.take
        (p := fun c => c.symbol = .name ∧ c.content = w.current.content) hw hne ⟨h, rfl⟩ h₂
      cases h₃
      exact ⟨hr, (hw.sound_current hne).isName h, Window.current_of_consume h₂⟩
    · intro e h₁ hg
      rcases bind_eq_error_iff.1 h₁ with h₂ | ⟨t, w'', -, h₃⟩
      · rw [expect_of_eq h] at h₂
        rw [Window.consume_error h₂] at hg
        cases hg
      · cases h₃
  · constructor
    · intro n w' h₁
      obtain ⟨t, w'', h₂, -⟩ := bind_eq_ok_iff.1 h₁
      rw [expect_of_ne h] at h₂
      cases h₂
    · intro e h₁ _
      rcases bind_eq_error_iff.1 h₁ with h₂ | ⟨t, w'', -, h₃⟩
      · rw [expect_of_ne h] at h₂
        cases h₂
        obtain ⟨n, hn, hp⟩ := hd
        exact ⟨n, w, .refl hw hp, hn, rfl⟩
      · cases h₃

theorem Follows.expect {f : Token → Parse α} {s : Symbol} (hs : s.isWritten = true)
    (hf : ∀ t, (f t).Follows w₀ (K * Spelling.symbol s) (fun _ => ∃ w, Φ w) N Q S) :
    (expect s >>= f).Follows w₀ K Φ N Q S :=
  .bind (fun _ hw _ => expect_meets hs hw) ⟨Token.eof .start, trivial, .symbol hs⟩
    fun t _ => (hf t).mono fun _ h => h.2

theorem Follows.expectClosing {f : Token → Parse α} {closer opener : Symbol} {line : Nat}
    (hs : closer.isWritten = true)
    (hf : ∀ t, (f t).Follows w₀ (K * Spelling.symbol closer) (fun _ => ∃ w, Φ w) N Q S) :
    (expectClosing closer opener line >>= f).Follows w₀ K Φ N Q S :=
  .bind (fun _ hw _ => expectClosing_meets hs hw) ⟨Token.eof .start, trivial, .symbol hs⟩
    fun t _ => (hf t).mono fun _ h => h.2

theorem Follows.expectName {f : Name → Parse α}
    (hf : ∀ n, IsName n.text →
      (f n).Follows w₀ (K * Spelling.name n) (fun _ => ∃ w, Φ w) N Q S) :
    (expectName >>= f).Follows w₀ K Φ N Q S :=
  .bind (fun _ hw _ => (expectName_meets hw).mono (fun _ h => h) fun _ _ _ _ => trivial)
    ⟨⟨"x", default⟩, isName_x, .name⟩ fun n hn => (hf n hn).mono fun _ h => h.2

/-- Taking a token just if it is a given one. -/
theorem Follows.accept {f : Option Token → Parse α} {s : Symbol} (hs : s ≠ .eof)
    (hsome : ∀ t, (f (some t)).Follows w₀ (K * Spelling.symbol s) (fun _ => ∃ w, Φ w) N Q S)
    (hnone : (f none).Follows w₀ K (fun w => Φ w ∧ w.current.symbol ≠ s) N Q S) :
    (accept s >>= f).Follows w₀ K Φ N Q S where
  completes := hnone.completes
  meets w hr hΦ := by
    by_cases h : w.current.symbol = s
    · have heq : (Parse.accept s >>= f) w = (consume >>= fun t => f (some t)) w := by
        rw [bind_apply, accept_of_eq h, bind_apply]
        show (w.consume.bind _).bind _ = w.consume.bind _
        cases w.consume <;> rfl
      exact .congr heq (.take (p := (·.symbol = s)) hr (h ▸ hs) h
        fun w' hr' => (hsome w.current).meets w' hr' ⟨w, hΦ⟩)
    · have heq : (Parse.accept s >>= f) w = f none w := by
        rw [bind_apply, accept_of_ne h]
        rfl
      exact .congr heq (hnone.meets w hr ⟨hΦ, h⟩)

/-! ## Repetition -/

section Loop

variable {step : α → Parse (α ⊕ β)} {I : α → Language Letter} {G : α → Prop}
  {Ψ : α → Window → Prop} {N : β → Language Letter} {Q : β → Prop} {S : β → Window → Prop}

theorem loopAlong_meets (hI : ∀ a, G a → Completes (I a) N Q)
    (hs : ∀ a w, G a → w₀.Reads (I a) w → Ψ a w →
      (step a).Meets w₀ w (Sum.elim I N) (Sum.elim G Q) (Sum.elim Ψ S))
    (ts : List Token) (a : α) (w : Window) (ha : G a) (hr : w₀.Reads (I a) w) (hΨ : Ψ a w) :
    (loopAlong step ts a).Meets w₀ w N Q S := by
  -- A fault of a step is about the beginning of a result or of a state to go on from.
  have hfault : ∀ {e a w}, G a → w₀.Reads (I a) w → Ψ a w → step a w = .error e →
      e.cause.isGrammatical = true →
      ∃ b w', w₀.Opens (N b) w' ∧ Q b ∧ e.span = w'.current.span := by
    intro e a w ha hr hΨ h hg
    obtain ⟨x, w', ho, hx, hspan⟩ := (hs a w ha hr hΨ).fault h hg
    cases x with
    | inl a' =>
      obtain ⟨b, ho, hb⟩ := (hI a' hx).opens ho
      exact ⟨b, w', ho, hb, hspan⟩
    | inr b => exact ⟨b, w', ho, hx, hspan⟩
  induction ts generalizing a w with
  | nil =>
    constructor
    · intro b w'' h
      obtain ⟨x, w', h₁, h₂⟩ := bind_eq_ok_iff.1 h
      cases x with
      | inl a' => cases h₂
      | inr b =>
        cases h₂
        exact (hs a w ha hr hΨ).ok h₁
    · intro e h hg
      rcases bind_eq_error_iff.1 h with h₁ | ⟨x, w', -, h₂⟩
      · exact hfault ha hr hΨ h₁ hg
      · cases x with
        | inl a' =>
          cases h₂
          cases hg
        | inr b => cases h₂
  | cons t ts ih =>
    constructor
    · intro b w'' h
      obtain ⟨x, w', h₁, h₂⟩ := bind_eq_ok_iff.1 h
      obtain ⟨hr', hx, hΨ'⟩ := (hs a w ha hr hΨ).ok h₁
      cases x with
      | inl a' => exact (ih a' w' hx hr' hΨ').ok h₂
      | inr b =>
        cases h₂
        exact ⟨hr', hx, hΨ'⟩
    · intro e h hg
      rcases bind_eq_error_iff.1 h with h₁ | ⟨x, w', h₁, h₂⟩
      · exact hfault ha hr hΨ h₁ hg
      · obtain ⟨hr', hx, hΨ'⟩ := (hs a w ha hr hΨ).ok h₁
        cases x with
        | inl a' => exact (ih a' w' hx hr' hΨ').fault h₂ hg
        | inr b => cases h₂

/-- A repetition, each step of which goes on to a state that the words so far spell or gives a
result that they spell. -/
theorem Follows.loop {a : α} (ha : G a) (hI : ∀ a, G a → Completes (I a) N Q)
    (hs : ∀ a w, G a → w₀.Reads (I a) w → Ψ a w →
      (step a).Meets w₀ w (Sum.elim I N) (Sum.elim G Q) (Sum.elim Ψ S)) :
    (loop step a).Follows w₀ (I a) (Ψ a) N Q S where
  completes := hI a ha
  meets w hr hΨ := .congr (q := loopAlong step w.ahead a) rfl
    (loopAlong_meets hI hs w.ahead a w ha hr hΨ)

end Loop

/-! ## Lists -/

section Separated

variable {separator : Symbol} {item : Token → Parse α} {L : α → Language Letter}
  {G : α → Prop} {B : α → Prop} {F : α → Window → Prop}

/-- A list with separators, behind its first item. -/
theorem separated_meets {w : Window} (hs : separator.isWritten = true)
    (hitem : ∀ t w, w.Proper → (item t).Meets w w L G fun a w' => B a ∧ F a w')
    (hd : ∃ a, G a ∧ HasPlain (L a)) (first : α) (hw : w.Proper) (hF : F first w) :
    (separated separator item first).Meets w w
      (fun as => Spelling.series separator L as.tail)
      (fun as => as.head? = some first ∧ ∀ a ∈ as.tail, G a)
      (fun as w' => (∀ a ∈ as.tail, B a) ∧ (∀ a ∈ as.getLast?, F a w') ∧
        w'.current.symbol ≠ separator) := by
  have hne : separator ≠ .eof := by
    rintro rfl
    cases hs
  -- The items so far stand in reverse order, the first one at the end.
  let Ψ : List α → Window → Prop := fun items w' =>
    (∀ a ∈ items.reverse.tail, B a) ∧ ∀ a ∈ items.head?, F a w'
  have hloop : (separated separator item first).Follows w
      (Spelling.series separator L ([first] : List α).reverse.tail) (Ψ [first])
      (fun as => Spelling.series separator L as.tail)
      (fun as => as.head? = some first ∧ ∀ a ∈ as.tail, G a)
      (fun as w' => (∀ a ∈ as.tail, B a) ∧ (∀ a ∈ as.getLast?, F a w') ∧
        w'.current.symbol ≠ separator) := by
    refine Follows.loop (I := fun items : List α => Spelling.series separator L items.reverse.tail)
      (G := fun items => ∃ as, items.reverse = first :: as ∧ ∀ a ∈ as, G a) ⟨[], rfl, by simp⟩
      ?_ ?_
    · rintro items ⟨as, has, hg⟩
      refine .of_le (a := items.reverse) le_rfl ?_
      rw [has]
      exact ⟨rfl, hg⟩
    · rintro items w' ⟨as, has, hg⟩ hr hΨ
      refine Follows.meets (.accept hne (fun t => ?_) ?_) w' hr hΨ
      · refine .bind (fun w hw _ => hitem t w hw) hd fun a ha => .pure ?_ ?_ ?_
        · show _ ≤ Spelling.series separator L (a :: items).reverse.tail
          rw [List.reverse_cons, has]
          exact (Spelling.series_concat separator L as a).ge
        · refine ⟨as ++ [a], by rw [List.reverse_cons, has, List.cons_append], ?_⟩
          simpa [or_imp, forall_and] using ⟨hg, ha⟩
        · rintro w'' ⟨⟨hB, hF⟩, -⟩
          refine ⟨?_, by simpa using hF⟩
          have hBs := hΨ.1
          rw [has] at hBs
          rw [List.reverse_cons, has]
          simpa [or_imp, forall_and] using ⟨hBs, hB⟩
      · refine .pure le_rfl ?_ ?_
        · rw [has]
          exact ⟨rfl, hg⟩
        · rintro w'' ⟨hΨ', hsym⟩
          exact ⟨hΨ'.1, by simpa using hΨ'.2, hsym⟩
  exact hloop.start hw ⟨by simp, by simpa using hF⟩

theorem commaList_meets {item : Parse α} {w : Window}
    (hitem : ∀ w, w.Proper → item.Meets w w L G fun a w' => B a ∧ F a w')
    (hd : ∃ a, G a ∧ HasPlain (L a)) (hw : w.Proper) :
    (commaList item).Meets w w (Spelling.list .comma L)
      (fun as => as ≠ [] ∧ ∀ a ∈ as, G a)
      (fun as w' => (∀ a ∈ as, B a) ∧ (∀ a ∈ as.getLast?, F a w') ∧
        w'.current.symbol ≠ .comma) := by
  refine Follows.start (Φ := fun _ => True) ?_ hw trivial
  refine .bind (fun w hw _ => hitem w hw) hd fun first hfirst => ?_
  refine .last (fun w hw hF => separated_meets rfl (fun _ => hitem) hd first hw hF.1.2)
    ⟨[first], ⟨rfl, by simp⟩, .one⟩ ?_ ?_ ?_
  · rintro as ⟨has, -⟩
    obtain ⟨as, rfl⟩ := List.head?_eq_some_iff.1 has
    rw [one_mul]
    exact le_rfl
  · rintro as ⟨has, hg⟩
    obtain ⟨as, rfl⟩ := List.head?_eq_some_iff.1 has
    exact ⟨List.cons_ne_nil _ _, by simpa using ⟨hfirst, hg⟩⟩
  · rintro as w' ⟨has, -⟩ ⟨hB, hF, hsym⟩ ⟨-, ⟨hfirst, -⟩, -⟩
    obtain ⟨as, rfl⟩ := List.head?_eq_some_iff.1 has
    exact ⟨by simpa using ⟨hfirst, hB⟩, hF, hsym⟩

end Separated

end Parse

end LuaSource
