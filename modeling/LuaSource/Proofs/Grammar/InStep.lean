-- SUMMARY: Two runs of the grammar that go on in step, and the rules for parsers that do.
import LuaSource.Grammar.Statement
import LuaSource.Proofs.Tree.Shape

/-!
# Runs in step

Two token sequences can have the same lexemes in different places. A parser that runs on both takes
the same tokens in both runs and gives results of the same shape, until one of the runs ends. What
places have to do with each other, and how the runs may end, is left open here. The grammar looks
at lines in two cases only: to tell arguments from a new statement, and to tell whether a message
has to say where a construct was opened.
-/

namespace LuaSource

/-! ## Two runs -/

namespace Window

/-- A fault at the current token. -/
def fault (w : Window) (f : String → ParseFault) : Located ParseFault :=
  ⟨f w.current.text, w.current.span⟩

/-- The fault of a construct, opened on a line, that the current token does not close. -/
def closingFault (w : Window) (closer opener : Symbol) (line : Nat) : Located ParseFault :=
  if w.current.span.start.line = line then w.fault (.expected closer.spelling)
  else w.fault (.unclosed closer.spelling opener.spelling line)

/-- The current token begins on the line on which the one before it ends. -/
def Joined (w : Window) : Prop := w.before.line = w.current.span.start.line

end Window

theorem Parse.expectClosing_apply (closer opener : Symbol) (line : Nat) (w : Window) :
    (expectClosing closer opener line : Parse Token) w =
      if w.current.symbol = closer then w.consume
      else .error (w.closingFault closer opener line) := by
  show (if w.current.symbol = closer then Parsing.consume
    else if w.current.span.start.line = line then Parsing.fail _
    else Parsing.fail _ : Parse Token) w = _
  rw [Window.closingFault]
  split
  · rfl
  · split <;> rfl

/-- The line that a fault tells. -/
def ParseFault.line? : ParseFault → Option Nat
  | unclosed _ _ line _ => some line
  | _ => none

/-- A fault that tells no line, whatever it quotes. -/
def ParseFault.Lineless (f : String → ParseFault) : Prop := ∀ near, (f near).line? = none

/-- Two runs: the windows at which they can be at the same time, and how they may end. -/
structure Parallel where
  /-- Both runs have taken `n` tokens at least, and are at these windows. -/
  At : Nat → Window → Window → Prop
  /-- The second line is for the second run what the first one is for the first run. -/
  Lines : Nat → Nat → Prop
  /-- The faults with which both runs end at the same time. -/
  Faults : Located ParseFault → Located ParseFault → Prop
  /-- The faults with which the first run ends alone. -/
  Left : Located ParseFault → Prop
  /-- The faults with which the second run ends alone. -/
  Right : Located ParseFault → Prop
  at_mono : ∀ {n m w v}, At n w v → m ≤ n → At m w v
  lexeme_eq : ∀ {n w v}, At n w v → w.current.toLexeme = v.current.toLexeme
  lines : ∀ {n w v}, At n w v → Lines w.current.span.start.line v.current.span.start.line
  following_eq : ∀ {n w v}, At n w v → w.following.symbol = v.following.symbol
  length_eq : ∀ {n w v}, At n w v → w.ahead.length = v.ahead.length
  /-- Both runs go on by a token, or neither does. -/
  consumes : ∀ {n w v}, At n w v →
    (∃ w' v', w.consume = .ok (w.current, w') ∧ v.consume = .ok (v.current, v') ∧
      At (n + 1) w' v') ∨
    ∃ e e', w.consume = .error e ∧ v.consume = .error e' ∧ Faults e e'
  faults : ∀ {n w v f}, At n w v → ParseFault.Lineless f → Faults (w.fault f) (v.fault f)
  closingFaults : ∀ {n w v closer opener line line'}, At n w v → Lines line line' →
    Faults (w.closingFault closer opener line) (v.closingFault closer opener line')
  left : ∀ {n w v}, At (n + 1) w v → w.current.symbol = .leftParen → ¬w.Joined → v.Joined →
    Left (w.fault .ambiguousCall)
  right : ∀ {n w v}, At (n + 1) w v → v.current.symbol = .leftParen → w.Joined → ¬v.Joined →
    Right (v.fault .ambiguousCall)

namespace Parallel

open Parse Parsing

variable {α β γ δ : Type} {L : Parallel} {n m l : Nat} {w v : Window} {s : α → γ} {t : β → δ}
  {p p' q q' : Parse α} {f f' : α → Parse β}

theorem symbol_eq (h : L.At n w v) : w.current.symbol = v.current.symbol :=
  congrArg Lexeme.symbol (L.lexeme_eq h)

/-- The second token is for the second run what the first one is for the first run. -/
structure Tokens (L : Parallel) (a b : Token) : Prop where
  lexeme : a.toLexeme = b.toLexeme
  line : L.Lines a.span.start.line b.span.start.line

theorem Tokens.symbol {a b : Token} (h : L.Tokens a b) : a.symbol = b.symbol :=
  congrArg Lexeme.symbol h.lexeme

theorem Tokens.content {a b : Token} (h : L.Tokens a b) : a.content = b.content :=
  congrArg (·.value.getD "") h.lexeme

theorem tokens (h : L.At n w v) : L.Tokens w.current v.current := ⟨L.lexeme_eq h, L.lines h⟩

/-- How two runs end together: with results of the same shape where both have taken the same
tokens, with faults that go together, or with a fault of one run alone. -/
inductive Outcome (L : Parallel) (n : Nat) (s : α → γ) :
    Except (Located ParseFault) (α × Window) → Except (Located ParseFault) (α × Window) → Prop
  | ok {a b : α} {w v : Window} (hs : s a = s b) (h : L.At n w v) :
    Outcome L n s (.ok (a, w)) (.ok (b, v))
  | faults {e e' : Located ParseFault} (h : L.Faults e e') : Outcome L n s (.error e) (.error e')
  | left {e : Located ParseFault} {r : Except (Located ParseFault) (α × Window)}
    (h : L.Left e) : Outcome L n s (.error e) r
  | right {r : Except (Located ParseFault) (α × Window)} {e : Located ParseFault}
    (h : L.Right e) : Outcome L n s r (.error e)

theorem Outcome.mono {r r' : Except (Located ParseFault) (α × Window)} (h : L.Outcome m s r r')
    (hl : l ≤ m) : L.Outcome l s r r' := by
  cases h with
  | ok hs h => exact .ok hs (L.at_mono h hl)
  | faults h => exact .faults h
  | left h => exact .left h
  | right h => exact .right h

theorem Outcome.bind {r r' : Except (Located ParseFault) (α × Window)}
    {k k' : α × Window → Except (Located ParseFault) (β × Window)} (h : L.Outcome m s r r')
    (hk : ∀ a b w v, s a = s b → L.At m w v → L.Outcome l t (k (a, w)) (k' (b, v))) :
    L.Outcome l t (r.bind k) (r'.bind k') := by
  cases h with
  | ok hs h => exact hk _ _ _ _ hs h
  | faults h => exact .faults h
  | left h => exact .left h
  | right h => exact .right h

/-- How the two parsers run at two windows. -/
def InStepAt (L : Parallel) (m : Nat) (s : α → γ) (w v : Window) (p q : Parse α) : Prop :=
  L.Outcome m s (p w) (q v)

/-- From windows that are `n` tokens on at least, the two parsers run in step, and behind their
results they are `m` tokens on at least. The results are compared by `s`. -/
def InStep (L : Parallel) (n m : Nat) (s : α → γ) (p q : Parse α) : Prop :=
  ∀ w v, L.At n w v → L.InStepAt m s w v p q

namespace InStep

theorem mono (h : L.InStep n m s p q) (hl : l ≤ m) : L.InStep n l s p q :=
  fun w v hwv => (h w v hwv).mono hl

theorem pure {a b : α} (h : s a = s b) : L.InStep n n s (pure a) (pure b) :=
  fun _ _ hwv => .ok h hwv

theorem fail {f : String → ParseFault} (hf : ParseFault.Lineless f) :
    L.InStep n m s (fail f) (fail f) := fun _ _ hwv => .faults (L.faults hwv hf)

theorem bind (hp : L.InStep n m s p p')
    (hf : ∀ a b, s a = s b → L.InStep m l t (f a) (f' b)) :
    L.InStep n l t (p >>= f) (p' >>= f') :=
  fun w v hwv => (hp w v hwv).bind fun _ _ _ _ hs h => hf _ _ hs _ _ h

theorem map {g : α → β} (hp : L.InStep n m s p p') (hg : ∀ a b, s a = s b → t (g a) = t (g b)) :
    L.InStep n m t (g <$> p) (g <$> p') := by
  rw [map_eq_pure_bind, map_eq_pure_bind]
  exact hp.bind fun a b h => pure (hg a b h)

theorem ite {c : Prop} [Decidable c] (hp : L.InStep n m s p p') (hq : L.InStep n m s q q') :
    L.InStep n m s (if c then p else q) (if c then p' else q') := by
  split
  · exact hp
  · exact hq

/-- Two ways of going on behind which the same comes. -/
theorem ite_bind {c : Prop} [Decidable c] (hp : L.InStep n m s p p') (hq : L.InStep n m s q q')
    (hf : ∀ a b, s a = s b → L.InStep m l t (f a) (f' b)) :
    L.InStep n l t (if c then p >>= f else q >>= f) (if c then p' >>= f' else q' >>= f') :=
  ite (hp.bind hf) (hq.bind hf)

/-! ## Single tokens -/

theorem current {f g : Token → Parse α}
    (h : ∀ a b, L.Tokens a b → L.InStep n m s (f a) (g b)) :
    L.InStep n m s (current >>= f) (Parsing.current >>= g) :=
  fun w v hwv => h _ _ (L.tokens hwv) w v hwv

theorem symbol_at (hwv : L.At n w v) {f g : Symbol → Parse α}
    (h : L.InStepAt m s w v (f w.current.symbol) (g w.current.symbol)) :
    L.InStepAt m s w v (symbol >>= f) (Parsing.symbol >>= g) := by
  show L.Outcome m s (f w.current.symbol w) (g v.current.symbol v)
  rwa [← symbol_eq hwv]

theorem symbol {f g : Symbol → Parse α} (h : ∀ a, L.InStep n m s (f a) (g a)) :
    L.InStep n m s (Parsing.symbol >>= f) (Parsing.symbol >>= g) :=
  fun w v hwv => symbol_at hwv (h _ w v hwv)

theorem followingSymbol {f g : Symbol → Parse α} (h : ∀ a, L.InStep n m s (f a) (g a)) :
    L.InStep n m s (followingSymbol >>= f) (Parsing.followingSymbol >>= g) := by
  intro w v hwv
  have hv := h w.following.symbol w v hwv
  show L.Outcome m s (f w.following.symbol w) (g v.following.symbol v)
  rwa [← L.following_eq hwv]

/-- Where an opening parenthesis is on the line of the token before it in one of the runs only,
the other run ends. -/
theorem onSameLine_at (hwv : L.At (n + 1) w v) (hs : w.current.symbol = .leftParen)
    (h : L.InStep (n + 1) m s p q) :
    L.InStepAt m s w v (onSameLine >>= fun b => if b then p else Parsing.fail .ambiguousCall)
      (onSameLine >>= fun b => if b then q else Parsing.fail .ambiguousCall) := by
  have hrun : ∀ (p : Parse α) (u : Window),
      (u.Joined → (onSameLine >>= fun b => if b then p else Parsing.fail .ambiguousCall) u = p u) ∧
      (¬u.Joined → (onSameLine >>= fun b => if b then p else Parsing.fail .ambiguousCall) u =
        .error (u.fault .ambiguousCall)) := by
    intro p u
    have hu : (onSameLine >>= fun b => if b then p else Parsing.fail .ambiguousCall) u =
        (if (u.current.span.start.line == u.before.line) = true then p
          else Parsing.fail .ambiguousCall) u := rfl
    simp only [hu, beq_iff_eq, Window.Joined, eq_comm (a := u.before.line)]
    exact ⟨fun h => by rw [if_pos h], fun h => by rw [if_neg h]; rfl⟩
  rw [InStepAt]
  by_cases hw : w.Joined
  · rw [(hrun p w).1 hw]
    by_cases hv : v.Joined
    · rw [(hrun q v).1 hv]
      exact h w v hwv
    · rw [(hrun q v).2 hv]
      exact .right (L.right hwv (symbol_eq hwv ▸ hs) hw hv)
  · rw [(hrun p w).2 hw]
    by_cases hv : v.Joined
    · exact .left (L.left hwv hs hw hv)
    · rw [(hrun q v).2 hv]
      exact .faults (L.faults hwv fun _ => rfl)

/-- Taking a token, of which there is one more then. -/
theorem takeOn {f g : Token → Parse α}
    (h : ∀ a b, L.Tokens a b → L.InStep (n + 1) m s (f a) (g b)) :
    L.InStep n m s (consume >>= f) (Parsing.consume >>= g) := by
  intro w v hwv
  show L.Outcome m s (w.consume.bind _) (v.consume.bind _)
  rcases L.consumes hwv with ⟨w', v', hw, hv, hwv'⟩ | ⟨e, e', hw, hv, he⟩
  · rw [hw, hv]
    exact h _ _ (L.tokens hwv) w' v' hwv'
  · rw [hw, hv]
    exact .faults he

theorem take {f g : Token → Parse α}
    (h : ∀ a b, L.Tokens a b → L.InStep n m s (f a) (g b)) :
    L.InStep n m s (consume >>= f) (Parsing.consume >>= g) :=
  takeOn fun a b hab w v hwv => h a b hab w v (L.at_mono hwv (Nat.le_succ n))

/-- What comes behind a token that may be there. -/
theorem acceptThen {x : Symbol} {f g : Option Token → Parse α}
    (hsome : ∀ a b, L.Tokens a b → L.InStep n m s (f (some a)) (g (some b)))
    (hnone : L.InStep n m s (f none) (g none)) :
    L.InStep n m s (accept x >>= f) (accept x >>= g) := by
  have haccept : ∀ {f : Option Token → Parse α}, (accept x >>= f) = (do
      if (← Parsing.symbol) = x then f (some (← consume)) else f none) := by
    intro f
    rw [accept, bind_assoc]
    refine bind_congr fun s => ?_
    split <;> simp
  rw [haccept, haccept]
  exact symbol fun _ => ite (take hsome) hnone

/-- What comes behind a token that has to be there. -/
theorem expectOn {x : Symbol} {f g : Token → Parse α}
    (h : ∀ a b, L.Tokens a b → L.InStep (n + 1) m s (f a) (g b)) :
    L.InStep n m s (expect x >>= f) (expect x >>= g) := by
  have hexpect : ∀ {f : Token → Parse α}, (expect x >>= f) = (do
      if (← Parsing.symbol) = x then f (← consume) else Parsing.fail (.expected x.spelling)) := by
    intro f
    rw [expect, bind_assoc]
    refine bind_congr fun s => ?_
    split
    · rfl
    · rfl
  rw [hexpect, hexpect]
  exact symbol fun _ => ite (takeOn h) (fail fun _ => rfl)

theorem expectThen {x : Symbol} {f g : Token → Parse α}
    (h : ∀ a b, L.Tokens a b → L.InStep n m s (f a) (g b)) :
    L.InStep n m s (expect x >>= f) (expect x >>= g) :=
  expectOn fun a b hab w v hwv => h a b hab w v (L.at_mono hwv (Nat.le_succ n))

theorem closing {closer opener : Symbol} {line line' : Nat} {f g : Token → Parse α}
    (hline : L.Lines line line') (h : ∀ a b, L.InStep n m s (f a) (g b)) :
    L.InStep n m s (expectClosing closer opener line >>= f)
      (expectClosing closer opener line' >>= g) := by
  have hclosing : ∀ {line : Nat} {f : Token → Parse α} {u : Window},
      (expectClosing closer opener line >>= f) u =
        if u.current.symbol = closer then (consume >>= f) u
        else .error (u.closingFault closer opener line) := by
    intro line f u
    rw [bind_apply, expectClosing_apply]
    split <;> rfl
  intro w v hwv
  rw [InStepAt, hclosing, hclosing, ← symbol_eq hwv]
  split
  · exact take (fun a b _ => h a b) w v hwv
  · exact .faults (L.closingFaults hwv hline)

theorem name {f g : Name → Parse α}
    (h : ∀ a b, Shape.name a = Shape.name b → L.InStep n m s (f a) (g b)) :
    L.InStep n m s (expectName >>= f) (expectName >>= g) := by
  rw [expectName, bind_assoc, bind_assoc]
  refine expectThen fun a b hab => ?_
  rw [content_bind, content_bind, pure_bind, pure_bind]
  exact h _ _ (congrArg (Name.mk · default) hab.content)

theorem expectName : L.InStep n (n + 1) Shape.name expectName expectName :=
  expectOn fun _ _ h => pure (congrArg (Name.mk · default) h.content)

/-! ## Repetition -/

theorem loopAlong {step step' : α → Parse (α ⊕ β)}
    (h : ∀ a b, s a = s b → L.InStep n n (Sum.map s t) (step a) (step' b)) {ts us : List Token}
    (hlength : ts.length = us.length) {a b : α} (hab : s a = s b) :
    L.InStep n n t (loopAlong step ts a) (Parse.loopAlong step' us b) := by
  induction ts generalizing us a b with
  | nil =>
    cases us with
    | nil =>
      refine (h a b hab).bind fun r r' hr => ?_
      cases r <;> cases r'
      · exact fail fun _ => rfl
      · cases hr
      · cases hr
      · exact pure (Sum.inr.inj hr)
    | cons u us => cases hlength
  | cons u ts ih =>
    cases us with
    | nil => cases hlength
    | cons u' us =>
      refine (h a b hab).bind fun r r' hr => ?_
      cases r <;> cases r'
      · exact ih (Nat.succ.inj hlength) (Sum.inl.inj hr)
      · cases hr
      · cases hr
      · exact pure (Sum.inr.inj hr)

theorem loop {step step' : α → Parse (α ⊕ β)}
    (h : ∀ a b, s a = s b → L.InStep n n (Sum.map s t) (step a) (step' b)) {a b : α}
    (hab : s a = s b) : L.InStep n n t (loop step a) (Parse.loop step' b) :=
  fun w v hwv => loopAlong h (L.length_eq hwv) hab w v hwv

theorem separated {x : Symbol} {item item' : Token → Parse α}
    (h : ∀ a b, L.Tokens a b → L.InStep n n s (item a) (item' b)) {first first' : α}
    (hfirst : s first = s first') :
    L.InStep n n (List.map s) (separated x item first) (Parse.separated x item' first') := by
  refine loop (s := List.map s) (fun items items' hitems => ?_) (by rw [List.map_singleton,
    List.map_singleton, hfirst])
  refine acceptThen (fun a b hab => (h a b hab).bind fun c d hcd => pure ?_) (pure ?_)
  · simp only [Sum.map_inl, List.map_cons, hcd, hitems]
  · simp only [Sum.map_inr, List.map_reverse, hitems]

theorem commaList (h : L.InStep n n s p q) :
    L.InStep n n (List.map s) (commaList p) (Parse.commaList q) :=
  h.bind fun _ _ hfirst => separated (fun _ _ _ => h) hfirst

end InStep

end Parallel

end LuaSource
