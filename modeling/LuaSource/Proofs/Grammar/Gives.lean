-- SUMMARY: Where parsers give results, and the rules for sequences of them.
import LuaSource.Proofs.Grammar.Beginnings
import LuaSource.Proofs.Grammar.Locality

/-!
# Results of parsers

If all tokens of a source can be read, a parser gives a result on the words that its result is
spelled by. What a sequence of parsers does is followed along the word before it: each takes its
part off the front and leaves the rest to the next one.
-/

namespace LuaSource

namespace Window

/-- A window on a source all of whose tokens can be read. -/
structure Ready (w : Window) : Prop where
  proper : w.Proper
  readable : ∃ eof, w.ending = .ok eof

variable {w : Window} {R : Language Letter} {p : Letter → Prop}

theorem Proper.symbol_following (hw : w.Proper) :
    w.following.symbol = headSymbol w.letters.tail := by
  obtain ⟨ahead, ending, before⟩ := w
  rcases ahead with _ | ⟨t, _ | ⟨u, us⟩⟩
  · exact hw.symbol_endToken
  · exact hw.symbol_endToken
  · rfl

theorem Ready.begins {P : Symbol → Prop} (hw : w.Ready) (h : w.letters ∈ R) (hR : Begins R P) :
    P w.current.symbol := by
  rw [hw.proper.symbol_current]
  exact hR _ h

/-- A letter at the front can be taken. -/
theorem Ready.take (hw : w.Ready) (h : w.letters ∈ Spelling.letter p * R) :
    ∃ w', w.consume = .ok (w.current, w') ∧ p (w.current.letter w.before) ∧ w'.Ready ∧
      w'.letters ∈ R := by
  obtain ⟨_, ⟨c, hc, rfl⟩, v, hv, hcv⟩ := Language.mem_mul.1 h
  obtain ⟨eof, he⟩ := hw.readable
  obtain ⟨t, w', hconsume, rfl, rfl, rfl, hending⟩ := consume_of_letters he hcv.symm
  exact ⟨w', hconsume, hc, ⟨proper_of_consume hw.proper hconsume, eof, hending.trans he⟩, hv⟩

theorem Ready.symbol {s : Symbol} (hw : w.Ready) (h : w.letters ∈ Spelling.symbol s * R) :
    w.current.symbol = s := hw.begins (P := (· = s)) h (.symbol rfl)

end Window

namespace Parse

open Parsing

variable {α β : Type} {p : Parse α} {f : α → Parse β} {w : Window} {R M : Language Letter}
  {P : α → Prop} {Q : β → Prop}

/-- The parser gives a result with the property `P` and leaves a word of `R`. -/
def Gives (p : Parse α) (w : Window) (R : Language Letter) (P : α → Prop) : Prop :=
  ∃ a w', p w = .ok (a, w') ∧ w'.Ready ∧ w'.letters ∈ R ∧ P a

namespace Gives

theorem bind (hp : p.Gives w R P)
    (hf : ∀ a w', w'.Ready → w'.letters ∈ R → P a → (f a).Gives w' M Q) :
    (p >>= f).Gives w M Q := by
  obtain ⟨a, w', h, hw', hl, ha⟩ := hp
  obtain ⟨b, w'', h', hw'', hl', hb⟩ := hf a w' hw' hl ha
  exact ⟨b, w'', bind_eq_ok_iff.2 ⟨a, w', h, h'⟩, hw'', hl', hb⟩

theorem pure {a : α} (hw : w.Ready) (h : w.letters ∈ R) (ha : P a) :
    (pure a : Parse α).Gives w R P := ⟨a, w, rfl, hw, h, ha⟩

theorem mono {P' : α → Prop} (h : p.Gives w R P) (hP : ∀ a, P a → P' a) : p.Gives w R P' := by
  obtain ⟨a, w', h, hw', hl, ha⟩ := h
  exact ⟨a, w', h, hw', hl, hP a ha⟩

theorem congr {q : Parse α} (hq : q.Gives w R P) (h : p w = q w) : p.Gives w R P := by
  obtain ⟨a, w', hq, hrest⟩ := hq
  exact ⟨a, w', h.trans hq, hrest⟩

/-! ## Looking -/

theorem onSameLine {f : Bool → Parse α} (h : (w.current.letter w.before).joined = true)
    (hf : (f true).Gives w R P) : (onSameLine >>= f).Gives w R P := by
  refine congr (q := f true) hf ?_
  rw [← h]
  rfl

theorem followingSymbol {f : Symbol → Parse α} (h : (f w.following.symbol).Gives w R P) :
    (followingSymbol >>= f).Gives w R P := congr (q := f w.following.symbol) h rfl

theorem current {f : Token → Parse α} (h : (f w.current).Gives w R P) :
    (current >>= f).Gives w R P := congr (q := f w.current) h rfl

theorem symbol {f : Symbol → Parse α} (h : (f w.current.symbol).Gives w R P) :
    (symbol >>= f).Gives w R P := congr (q := f w.current.symbol) h rfl

/-! ## Taking -/

theorem take {f : Token → Parse α} {p : Letter → Prop} (hw : w.Ready)
    (h : w.letters ∈ Spelling.letter p * R)
    (hf : ∀ w', w'.Ready → w'.letters ∈ R → p (w.current.letter w.before) →
      (f w.current).Gives w' M P) : (consume >>= f).Gives w M P := by
  obtain ⟨w', hconsume, hp, hw', hl⟩ := hw.take h
  obtain ⟨a, w'', h', hrest⟩ := hf w' hw' hl hp
  exact ⟨a, w'', bind_eq_ok_iff.2 ⟨w.current, w', hconsume, h'⟩, hrest⟩

theorem accept_some {f : Option Token → Parse α} {s : Symbol} (hw : w.Ready)
    (h : w.letters ∈ Spelling.symbol s * R)
    (hf : ∀ t w', w'.Ready → w'.letters ∈ R → (f (some t)).Gives w' M P) :
    (accept s >>= f).Gives w M P := by
  refine congr (q := consume >>= fun t => f (some t)) (take hw h fun w' hw' hl _ =>
    hf _ w' hw' hl) ?_
  rw [bind_apply, accept_of_eq (hw.symbol h), bind_apply]
  show (w.consume.bind _).bind _ = w.consume.bind _
  cases w.consume <;> rfl

theorem accept_none {f : Option Token → Parse α} {s : Symbol} (hs : w.current.symbol ≠ s)
    (hf : (f none).Gives w M P) : (accept s >>= f).Gives w M P := by
  refine congr hf ?_
  rw [bind_apply, accept_of_ne hs]
  rfl

theorem expect {f : Token → Parse α} {s : Symbol} (hw : w.Ready)
    (h : w.letters ∈ Spelling.symbol s * R)
    (hf : ∀ t w', w'.Ready → w'.letters ∈ R → (f t).Gives w' M P) :
    (expect s >>= f).Gives w M P := by
  refine congr (q := consume >>= f) (take hw h fun w' hw' hl _ => hf _ w' hw' hl) ?_
  rw [bind_apply, expect_of_eq (hw.symbol h)]
  rfl

theorem expectClosing {f : Token → Parse α} {closer opener : Symbol} {line : Nat} (hw : w.Ready)
    (h : w.letters ∈ Spelling.symbol closer * R)
    (hf : ∀ t w', w'.Ready → w'.letters ∈ R → (f t).Gives w' M P) :
    (expectClosing closer opener line >>= f).Gives w M P := by
  refine congr (q := consume >>= f) (take hw h fun w' hw' hl _ => hf _ w' hw' hl) ?_
  rw [bind_apply]
  show Except.bind ((if w.current.symbol = closer then consume else _ : Parse Token) w) _ = _
  rw [if_pos (hw.symbol h)]
  rfl

theorem expectName {f : Name → Parse α} {n : Name} (hw : w.Ready)
    (h : w.letters ∈ Spelling.name n * R)
    (hf : ∀ m w', w'.Ready → w'.letters ∈ R → m.text = n.text → (f m).Gives w' M P) :
    (expectName >>= f).Gives w M P := by
  have hs : w.current.symbol = .name := hw.begins (P := (· = .name)) h (.name rfl)
  refine congr (q := consume >>= fun t => f ⟨t.content, t.span⟩)
    (take hw h fun w' hw' hl hc => hf _ w' hw' hl hc.2) ?_
  rw [bind_apply, Parse.expectName, bind_apply, expect_of_eq hs]
  show (w.consume.bind _).bind _ = w.consume.bind _
  cases w.consume <;> rfl

end Gives

/-! ## Repetition -/

/-- A repetition takes a step and goes on with what the step gives. -/
theorem Gives.loop {step : α → Parse (α ⊕ β)} {a : α} (hstep : StepLocal step) (hw : w.Ready)
    (h : (step a).Gives w M fun r => ∀ w', w'.Ready → w'.letters ∈ M →
      (r.elim (Parse.loop step) Pure.pure).Gives w' R Q) :
    (Parse.loop step a).Gives w R Q :=
  (h.bind fun _ w' hw' hl hr => hr w' hw' hl).congr (loop_eq hstep hw.proper)

/-- A step after which the repetition goes on. -/
theorem Gives.loop_goesOn {step : α → Parse (α ⊕ β)} {a : α} (hstep : StepLocal step)
    (hw : w.Ready) (h : (step a).Gives w R fun r => ∃ a', r = .inl a' ∧ P a') :
    ∃ a' w', Parse.loop step a w = Parse.loop step a' w' ∧ w'.Ready ∧ w'.letters ∈ R ∧ P a' := by
  obtain ⟨r, w', hr, hw', hl, a', rfl, ha⟩ := h
  refine ⟨a', w', ?_, hw', hl, ha⟩
  rw [loop_eq hstep hw.proper, bind_apply, hr]
  rfl

/-- A step with which the repetition ends. -/
theorem Gives.loop_ends {step : α → Parse (α ⊕ β)} {a : α} (hstep : StepLocal step)
    (hw : w.Ready) (h : (step a).Gives w R fun r => ∃ b, r = .inr b ∧ Q b) :
    (Parse.loop step a).Gives w R Q := by
  refine .loop hstep hw (M := R) (h.mono ?_)
  rintro r ⟨b, rfl, hb⟩ w' hw' hl
  exact .pure hw' hl hb

section Lists

variable {δ : Type} {separator : Symbol} {L : α → Language Letter} {F : α → Symbol → Prop}
  {shape : α → δ}

variable (shape) in
/-- Items with separators before them, each of which stops at what it can have behind it. -/
theorem loop_separatedStep_gives {item : Token → Parse α} {bs : List α}
    (hs : separator ≠ .eof) (hlocal : ∀ t, (item t).Local)
    (hitem : ∀ b ∈ bs, ∀ t w M, w.Ready → w.letters ∈ L b * M → Begins M (F b) →
      (item t).Gives w M fun a => shape a = shape b)
    (hseparator : ∀ b, F b separator) (hlast : ∀ b ∈ bs.getLast?, Begins R (F b))
    (hR : Begins R (· ≠ separator)) (as : List α) (hw : w.Ready)
    (h : w.letters ∈ Spelling.series separator L bs * R) :
    (Parse.loop (separatedStep separator item) as).Gives w R fun cs =>
      cs.map shape = as.reverse.map shape ++ bs.map shape := by
  induction bs generalizing as w with
  | nil =>
    rw [Spelling.series, one_mul] at h
    refine .loop (separatedStep_local hs hlocal) hw (M := R) ?_
    refine .accept_none (hw.begins h hR) (.pure hw h fun w' hw' hl => ?_)
    exact .pure hw' hl (by simp)
  | cons b bs ih =>
    rw [Spelling.series, mul_assoc, mul_assoc] at h
    have hbehind : Begins (Spelling.series separator L bs * R) (F b) := by
      cases bs with
      | nil =>
        rw [Spelling.series, one_mul]
        exact hlast b rfl
      | cons c cs =>
        rw [Spelling.series, mul_assoc, mul_assoc]
        exact .symbol (hseparator b)
    refine .loop (separatedStep_local hs hlocal) hw (M := Spelling.series separator L bs * R) ?_
    refine .accept_some hw h fun t w' hw' hl => ?_
    refine (hitem b (by simp) t w' _ hw' hl hbehind).bind fun a w'' hw'' hl' ha => ?_
    refine .pure hw'' hl' fun w' hw' hl => ?_
    refine (ih (fun c hc => hitem c (by simp [hc])) ?_ (a :: as) hw' hl).mono fun cs hcs => ?_
    · intro c hc
      exact hlast c (by rw [List.getLast?_cons, Option.mem_def.1 hc]; rfl)
    · rw [hcs]
      simp [ha]

/-- One item or more. -/
theorem commaList_gives {item : Parse α} {bs : List α} (hlocal : item.Local)
    (hitem : ∀ b ∈ bs, ∀ w M, w.Ready → w.letters ∈ L b * M → Begins M (F b) →
      item.Gives w M fun a => shape a = shape b)
    (hcomma : ∀ b, F b .comma) (hlast : ∀ b ∈ bs.getLast?, Begins R (F b))
    (hR : Begins R (· ≠ .comma)) (hw : w.Ready)
    (h : w.letters ∈ Spelling.list .comma L bs * R) :
    (commaList item).Gives w R fun cs => cs.map shape = bs.map shape := by
  cases bs with
  | nil =>
    rw [Spelling.list, zero_mul] at h
    exact absurd h (Language.notMem_zero _)
  | cons b bs =>
    rw [Spelling.list, mul_assoc] at h
    have hbehind : Begins (Spelling.series .comma L bs * R) (F b) := by
      cases bs with
      | nil =>
        rw [Spelling.series, one_mul]
        exact hlast b rfl
      | cons c cs =>
        rw [Spelling.series, mul_assoc, mul_assoc]
        exact .symbol (hcomma b)
    refine (hitem b (by simp) w _ hw h hbehind).bind fun a w' hw' hl ha => ?_
    refine (loop_separatedStep_gives shape (by decide) (fun _ => hlocal)
      (fun c hc _ => hitem c (by simp [hc])) hcomma ?_ hR [a] hw' hl).mono fun cs hcs => ?_
    · intro c hc
      exact hlast c (by rw [List.getLast?_cons, Option.mem_def.1 hc]; rfl)
    · rw [hcs]
      simp [ha]

end Lists

end Parse

end LuaSource
