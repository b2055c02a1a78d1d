-- SUMMARY: Operators grouped by powers are grouped as by a grammar with a level for each power.
import LuaSource.Proofs.Grammar.LocalGrammar
import LuaSource.Proofs.Grammar.Room
import LuaSource.Proofs.Lexer.Stream

/-!
# Expressions level by level

The stratified grammar has a production for each power: the operators of a level stand between
items of the next one, which knows nothing of them. It takes the same tokens as the parser that
compares powers with a limit, and makes the same of them.
-/

namespace LuaSource

open Parse Parsing

/-! ## The stratified grammar -/

namespace Stratified

variable {α : Type}

/-- A parser that may come to itself again, once for each of some tokens and once more. -/
def nestAlong (f : Parse α → Parse α) : List Token → Parse α
  | [] => f (fail .tooManyLevels)
  | _ :: ts => f (nestAlong f ts)

/-- A parser that comes to itself again only behind a token, so that the tokens ahead are enough. -/
def nest (f : Parse α → Parse α) : Parse α := fun w => nestAlong f w.ahead w

/-- Go on with an operator of the level and an item, if such an operator follows. -/
def leftStep (ops : List BinaryOperator) (item : Parse Expression) (left : Expression) :
    Parse (Expression ⊕ Expression) := do
  match BinaryOperator.ofSymbol? (← symbol) with
  | some op =>
    if op ∈ ops then
      let _ ← consume
      let right ← item
      return .inl (.binary op left right (Span.between left.span right.span))
    else return .inr left
  | none => return .inr left

/-- Items with the operators of a level between them, grouped to the left. -/
def leftChain (ops : List BinaryOperator) (item : Parse Expression) : Parse Expression := do
  loop (leftStep ops item) (← item)

/-- An operator that groups to the right and what is to its right, if it follows. -/
def rightTail (op : BinaryOperator) (self : Parse Expression) (left : Expression) :
    Parse Expression := do
  if (← symbol) = op.symbol then
    let _ ← consume
    let right ← self
    return .binary op left right (Span.between left.span right.span)
  else return left

/-- A unary operator and its operand; or a simple expression, raised to a power or not. No unary
operator is left to the parser of simple expressions. -/
def prefixed (simple self : Parse Expression) : Parse Expression := do
  let token ← current
  match UnaryOperator.ofSymbol? token.symbol with
  | some op =>
    let _ ← consume
    let e ← self
    return .unary op e (Span.between token.span e.span)
  | none => rightTail .power self (← simple)

section Levels

variable (simple : Parse Expression)

def unary : Parse Expression := nest (prefixed simple)

def multiplicative : Parse Expression := leftChain [.multiply, .divide, .modulo] (unary simple)

def additive : Parse Expression := leftChain [.add, .subtract] (multiplicative simple)

def concatenation : Parse Expression := nest fun self => do
  rightTail .concat self (← additive simple)

def relational : Parse Expression :=
  leftChain [.less, .greater, .lessEqual, .greaterEqual, .notEqual, .equal] (concatenation simple)

def conjunction : Parse Expression := leftChain [.and] (relational simple)

def expression : Parse Expression := leftChain [.or] (conjunction simple)

end Levels

end Stratified

/-! ## Few tokens -/

/-- The parsers do the same wherever fewer than `d` tokens are ahead. -/
def Parse.EqBelow {α : Type} (d : Nat) (p q : Parse α) : Prop :=
  ∀ w, w.Proper → w.ahead.length < d → p w = q w

namespace Parse

variable {α β : Type} {p q : Parse α} {f g : α → Parse β} {w : Window} {d : Nat}

theorem EqBelow.of_eq (h : p = q) : p.EqBelow d q := fun w _ _ => congrFun h w

theorem EqBelow.symm (h : p.EqBelow d q) : q.EqBelow d p := fun w hw hd => (h w hw hd).symm

theorem EqBelow.trans {r : Parse α} (h : p.EqBelow d q) (h' : q.EqBelow d r) : p.EqBelow d r :=
  fun w hw hd => (h w hw hd).trans (h' w hw hd)

/-- What comes behind has to be the same only for the results that there are. -/
theorem bind_congr_at (hp : p w = q w) (hf : ∀ a w', q w = .ok (a, w') → f a w' = g a w') :
    (p >>= f) w = (q >>= g) w := by
  rw [bind_apply, bind_apply, hp]
  cases hq : q w with
  | error e => rfl
  | ok r => exact hf r.1 r.2 hq

theorem EqBelow.bind (hp : p.EqBelow d q) (hq : q.Local)
    (hf : ∀ a v w, v.Proper → v.ahead.length < d → q v = .ok (a, w) → w.Proper →
      w.ahead.length < d → f a w = g a w) : (p >>= f).EqBelow d (q >>= g) := by
  intro w hw hd
  refine bind_congr_at (hp w hw hd) fun a w' hok => ?_
  have hlength := (hq w hw).length hw hok
  exact hf a w w' hw hd hok ((hq w hw).proper hw hok) (Nat.lt_of_le_of_lt hlength hd)

/-- Behind a token, fewer tokens are ahead. -/
theorem take_congr {f g : Token → Parse β} (hw : w.Proper) (hs : w.current.symbol ≠ .eof)
    (h : ∀ t, (f t).EqBelow w.ahead.length (g t)) : (consume >>= f) w = (consume >>= g) w := by
  refine bind_congr_at rfl fun t w' hok => ?_
  have hlength := (consume_localAt (m := 0) hw hs).length hw hok
  exact h t w' (Window.proper_of_consume hw hok) hlength

end Parse

namespace Stratified

variable {α : Type} {f : Parse α → Parse α} {p : Parse α} {d : Nat}

/-- What comes to itself as the parser `p` does is the same as `p`. -/
theorem nest_eqBelow (h : ∀ self w, w.Proper → w.ahead.length < d →
      self.EqBelow w.ahead.length p → f self w = p w) : (nest f).EqBelow d p := by
  have halong : ∀ ts w, w.Proper → w.ahead.length < d → w.ahead.length ≤ ts.length →
      nestAlong f ts w = p w := by
    intro ts
    induction ts with
    | nil =>
      refine fun w hw hd hts => h _ w hw hd fun v _ hv => ?_
      exact absurd (Nat.lt_of_lt_of_le hv hts) (Nat.not_lt_zero _)
    | cons t ts ih =>
      refine fun w hw hd hts => h _ w hw hd fun v hv hlt => ih v hv (Nat.lt_trans hlt hd) ?_
      exact Nat.le_of_lt_succ (Nat.lt_of_lt_of_le hlt hts)
  exact fun w hw hd => halong w.ahead w hw hd (Nat.le_refl _)

end Stratified

/-! ## Operators by power -/

/-- What holds of each operator holds of all of them. -/
instance BinaryOperator.decidableForall {P : BinaryOperator → Prop} [DecidablePred P] :
    Decidable (∀ op, P op) :=
  decidable_of_iff (∀ op ∈ BinaryOperator.all, P op)
    ⟨fun h op => h op (BinaryOperator.mem_all op), fun h op _ => h op⟩

/-- A level that needs no limit as long as there are fewer than `d` tokens. -/
structure Level.Unlimited (inner : Level) (d : Nat) : Prop where
  isLocal : inner.Local
  operand : ∀ limit, (inner.operand limit).EqBelow d (Grammar.operand inner limit)

theorem unlimited_ofDepth (depth : Nat) : (Level.ofDepth depth).Unlimited depth where
  isLocal := Local.local_ofDepth depth
  operand limit w hw hd := by
    rcases (Below.below_ofDepth (Nat.le_succ depth)).operand limit w with heq | ⟨e, herror, hdeep⟩
    · exact heq
    · rw [Room.operand_not_tooDeep hw hd herror] at hdeep
      cases hdeep

namespace Stratified

variable {inner : Level} {d limit limit' : Nat} {w w' : Window} {left e : Expression}
  {op : BinaryOperator} {ops : List BinaryOperator} {item self : Parse Expression}

/-- No operator that binds tighter than a limit follows. -/
def Ended (limit : Nat) (w : Window) : Prop :=
  ∀ op, BinaryOperator.ofSymbol? w.current.symbol = some op → op.leftPower ≤ limit

theorem exists_of_not_ended (h : ¬ Ended limit w) :
    ∃ op, BinaryOperator.ofSymbol? w.current.symbol = some op ∧ limit < op.leftPower := by
  simpa [Ended] using h

/-- The operators behind an operand, in the order in which they are folded onto it. -/
def operators (inner : Level) (limit : Nat) (left : Expression) : Parse Expression :=
  loop (Grammar.operatorStep inner limit) left

theorem operand_eq (inner : Level) (limit : Nat) :
    Grammar.operand inner limit = Grammar.simpleOperand inner >>= operators inner limit := rfl

theorem operators_of_ended (h : inner.Local) (hw : w.Proper) (hended : Ended limit w) :
    operators inner limit left w = .ok (left, w) := by
  have hstep : Grammar.operatorStep inner limit left w = .ok (.inr left, w) := by
    rw [Grammar.operatorStep, bind_apply]
    show (match BinaryOperator.ofSymbol? w.current.symbol with
      | some op => if op.leftPower ≤ limit then _ else _
      | none => _ : Parse (Expression ⊕ Expression)) w = _
    cases hop : BinaryOperator.ofSymbol? w.current.symbol with
    | none => rfl
    | some op =>
      dsimp only
      rw [if_pos (hended op hop)]
      rfl
  rw [operators, loop_eq (Local.operatorStep_local h limit) hw, bind_apply, hstep]
  rfl

/-- An operator that binds tighter than the limit, folded onto what is to its left. -/
def folded (inner : Level) (limit : Nat) (left : Expression) (op : BinaryOperator) :
    Parse Expression := do
  let _ ← consume
  let right ← Grammar.operand inner op.rightPower
  operators inner limit (.binary op left right (Span.between left.span right.span))

theorem operators_of_lt (h : inner.Unlimited d) (hw : w.Proper) (hd : w.ahead.length < d)
    (hop : BinaryOperator.ofSymbol? w.current.symbol = some op) (hlt : limit < op.leftPower) :
    operators inner limit left w = folded inner limit left op w := by
  have hstep : Grammar.operatorStep inner limit left w = (do
      let _ ← consume
      let right ← inner.operand op.rightPower
      return .inl (.binary op left right (Span.between left.span right.span)) :
      Parse (Expression ⊕ Expression)) w := by
    rw [Grammar.operatorStep, bind_apply]
    show (match BinaryOperator.ofSymbol? w.current.symbol with
      | some op => if op.leftPower ≤ limit then _ else _
      | none => _ : Parse (Expression ⊕ Expression)) w = _
    rw [hop]
    dsimp only
    rw [if_neg (Nat.not_le.2 hlt)]
  rw [operators, loop_eq (Local.operatorStep_local h.isLocal limit) hw]
  refine (bind_congr_at hstep fun _ _ _ => rfl).trans ?_
  simp only [bind_assoc, pure_bind]
  refine take_congr hw (BinaryOperator.ne_eof_of_ofSymbol? hop) fun _ => ?_
  refine EqBelow.bind (fun v hv hlt => h.operand _ v hv (Nat.lt_trans hlt hd)) ?_ ?_
  · exact Local.operand_local h.isLocal _
  · exact fun _ _ _ _ _ _ _ _ => rfl

/-! ## Behind an operand -/

/-- The operators are folded until none that binds tighter than the limit follows. -/
theorem operators_ended (h : inner.Unlimited d) (hw : w.Proper) (hd : w.ahead.length < d)
    (hok : operators inner limit left w = .ok (e, w')) : Ended limit w' := by
  induction hlen : w.ahead.length using Nat.strong_induction_on generalizing left w with
  | _ length ih =>
    by_cases hended : Ended limit w
    · rw [operators_of_ended h.isLocal hw hended] at hok
      cases hok
      exact hended
    · obtain ⟨op, hop, hlt⟩ := exists_of_not_ended hended
      rw [operators_of_lt h hw hd hop hlt] at hok
      obtain ⟨t, v, hv, hok⟩ := bind_eq_ok_iff.1 hok
      obtain ⟨right, u, hu, hok⟩ := bind_eq_ok_iff.1 hok
      have hs := BinaryOperator.ne_eof_of_ofSymbol? hop
      have hvw := (consume_localAt (m := 0) hw hs).length hw hv
      have hv' := Window.proper_of_consume hw hv
      have hlocal := Local.operand_local h.isLocal op.rightPower v hv'
      have huv := hlocal.length hv' hu
      exact ih u.ahead.length (by omega) (hlocal.proper hv' hu) (by omega) hok rfl

theorem operand_ended (h : inner.Unlimited d) (hw : w.Proper) (hd : w.ahead.length < d)
    (hok : Grammar.operand inner limit w = .ok (e, w')) : Ended limit w' := by
  rw [operand_eq] at hok
  obtain ⟨left, v, hv, hok⟩ := bind_eq_ok_iff.1 hok
  have hlocal := Local.simpleOperand_local h.isLocal w hw
  have hlength := hlocal.length hw hv
  exact operators_ended h (hlocal.proper hw hv) (by omega) hok

/-- Those operators that bind tighter than a higher limit may be folded first. -/
theorem operators_absorb (h : inner.Unlimited d) (hle : limit ≤ limit') (left : Expression) :
    (operators inner limit left).EqBelow d
      (operators inner limit' left >>= operators inner limit) := by
  intro w hw hd
  induction hlen : w.ahead.length using Nat.strong_induction_on generalizing left w with
  | _ length ih =>
    rw [bind_apply]
    by_cases hended : Ended limit' w
    · rw [operators_of_ended h.isLocal hw hended]
      rfl
    · obtain ⟨op, hop, hlt⟩ := exists_of_not_ended hended
      rw [operators_of_lt h hw hd hop hlt,
        operators_of_lt h hw hd hop (Nat.lt_of_le_of_lt hle hlt), ← bind_apply]
      simp only [folded, bind_assoc]
      refine take_congr hw (BinaryOperator.ne_eof_of_ofSymbol? hop) fun _ => ?_
      refine EqBelow.bind (.of_eq rfl) (Local.operand_local h.isLocal _) ?_
      intro right v u _ _ _ hu hlt
      exact ih u.ahead.length (hlen ▸ hlt) _ u hu (Nat.lt_trans hlt hd) rfl

theorem operand_absorb (h : inner.Unlimited d) (hle : limit ≤ limit') :
    (Grammar.operand inner limit).EqBelow d
      (Grammar.operand inner limit' >>= operators inner limit) := by
  rw [operand_eq, operand_eq, bind_assoc]
  refine EqBelow.bind (.of_eq rfl) (Local.simpleOperand_local h.isLocal) ?_
  exact fun left _ w _ _ _ hw hd => operators_absorb h hle left w hw hd

/-- Limits that let the same operators pass are the same. -/
theorem operand_congr (h : ∀ op : BinaryOperator, op.leftPower ≤ limit ↔ op.leftPower ≤ limit') :
    Grammar.operand inner limit = Grammar.operand inner limit' := by
  have hstep : Grammar.operatorStep inner limit = Grammar.operatorStep inner limit' := by
    funext left
    simp only [Grammar.operatorStep, h]
  rw [operand_eq, operand_eq]
  unfold operators
  rw [hstep]

/-! ## Levels that group to the left -/

theorem leftStep_of_mem (hop : BinaryOperator.ofSymbol? w.current.symbol = some op)
    (hmem : op ∈ ops) : leftStep ops item left w = (do
      let _ ← consume
      let right ← item
      return .inl (.binary op left right (Span.between left.span right.span)) :
      Parse (Expression ⊕ Expression)) w := by
  rw [leftStep, bind_apply]
  show (match BinaryOperator.ofSymbol? w.current.symbol with
    | some op => if op ∈ ops then _ else _
    | none => _ : Parse (Expression ⊕ Expression)) w = _
  rw [hop]
  dsimp only
  rw [if_pos hmem]

theorem leftStep_of_not_mem
    (h : ∀ op, BinaryOperator.ofSymbol? w.current.symbol = some op → op ∉ ops) :
    leftStep ops item left w = .ok (.inr left, w) := by
  rw [leftStep, bind_apply]
  show (match BinaryOperator.ofSymbol? w.current.symbol with
    | some op => if op ∈ ops then _ else _
    | none => _ : Parse (Expression ⊕ Expression)) w = _
  cases hop : BinaryOperator.ofSymbol? w.current.symbol with
  | none => rfl
  | some op =>
    dsimp only
    rw [if_neg (h op hop)]
    rfl

/-- Where no operator of a tighter level follows, what is folded with the lower limit are the
operators of the level, one after the other. -/
theorem loopAlong_leftStep (h : inner.Unlimited d)
    (hitem : item.EqBelow d (Grammar.operand inner limit'))
    (hops : ∀ op : BinaryOperator, op ∈ ops ↔ limit < op.leftPower ∧ op.leftPower ≤ limit')
    (hright : ∀ op ∈ ops, op.rightPower = limit') {ts : List Token} (hw : w.Proper)
    (hd : w.ahead.length < d) (hts : w.ahead.length ≤ ts.length) (hended : Ended limit' w) :
    loopAlong (leftStep ops item) ts left w = operators inner limit left w := by
  have hstop : ∀ {w left ts}, w.Proper → Ended limit w →
      loopAlong (leftStep ops item) ts left w = operators inner limit left w := by
    intro w left ts hw hended
    have hstep : leftStep ops item left w = .ok (.inr left, w) :=
      leftStep_of_not_mem fun op hop hmem =>
        absurd (hended op hop) (Nat.not_le.2 ((hops op).1 hmem).1)
    rw [operators_of_ended h.isLocal hw hended]
    cases ts <;> (rw [loopAlong, bind_apply, hstep]; rfl)
  induction ts generalizing left w with
  | nil =>
    refine hstop hw fun op hop => absurd hts ?_
    rw [hw.ahead_eq (BinaryOperator.ne_eof_of_ofSymbol? hop)]
    exact Nat.not_succ_le_zero _
  | cons t ts ih =>
    by_cases hlow : Ended limit w
    · exact hstop hw hlow
    · obtain ⟨op, hop, hlt⟩ := exists_of_not_ended hlow
      have hmem := (hops op).2 ⟨hlt, hended op hop⟩
      rw [operators_of_lt h hw hd hop hlt, loopAlong]
      refine (bind_congr_at (leftStep_of_mem hop hmem) fun _ _ _ => rfl).trans ?_
      rw [folded, hright op hmem]
      simp only [bind_assoc, pure_bind]
      refine take_congr hw (BinaryOperator.ne_eof_of_ofSymbol? hop) fun _ => ?_
      refine EqBelow.bind (fun v hv hlt => hitem v hv (Nat.lt_trans hlt hd))
        (Local.operand_local h.isLocal _) ?_
      intro right v u hv hvw hok hu huw
      exact ih hu (Nat.lt_trans huw hd) (Nat.le_of_lt_succ (Nat.lt_of_lt_of_le huw hts))
        (operand_ended h hv (Nat.lt_trans hvw hd) hok)

/-- The level of the operators between two limits, each of which offers the upper one to its
right. -/
theorem leftChain_eqBelow (h : inner.Unlimited d) (hle : limit ≤ limit')
    (hops : ∀ op : BinaryOperator, op ∈ ops ↔ limit < op.leftPower ∧ op.leftPower ≤ limit')
    (hright : ∀ op ∈ ops, op.rightPower = limit')
    (hitem : item.EqBelow d (Grammar.operand inner limit')) :
    (leftChain ops item).EqBelow d (Grammar.operand inner limit) := by
  refine .trans ?_ (operand_absorb h hle).symm
  refine EqBelow.bind hitem (Local.operand_local h.isLocal _) ?_
  intro left v w hv hd hok hw hd'
  exact loopAlong_leftStep h hitem hops hright hw hd' (Nat.le_refl _) (operand_ended h hv hd hok)

/-! ## Levels that group to the right -/

theorem rightTail_of_eq (h : w.current.symbol = op.symbol) : rightTail op self left w = (do
      let _ ← consume
      let right ← self
      return .binary op left right (Span.between left.span right.span) : Parse Expression) w := by
  rw [rightTail, bind_apply]
  show (if w.current.symbol = op.symbol then _ else _ : Parse Expression) w = _
  rw [if_pos h]

theorem rightTail_of_ne (h : w.current.symbol ≠ op.symbol) :
    rightTail op self left w = .ok (left, w) := by
  rw [rightTail, bind_apply]
  show (if w.current.symbol = op.symbol then _ else _ : Parse Expression) w = _
  rw [if_neg h]
  rfl

/-- If only one operator stands between two limits, and it offers the lower one to its right, then
behind it nothing is left to be folded. -/
theorem rightTail_eq (h : inner.Unlimited d)
    (hop : ∀ o : BinaryOperator, o = op ↔ limit < o.leftPower ∧ o.leftPower ≤ limit')
    (hright : ∀ o : BinaryOperator, o.leftPower ≤ op.rightPower ↔ o.leftPower ≤ limit)
    (hself : self.EqBelow w.ahead.length (Grammar.operand inner limit)) (hw : w.Proper)
    (hd : w.ahead.length < d) (hended : Ended limit' w) :
    rightTail op self left w = operators inner limit left w := by
  by_cases hs : w.current.symbol = op.symbol
  · have hsymbol : BinaryOperator.ofSymbol? w.current.symbol = some op := by
      rw [hs, BinaryOperator.ofSymbol?_symbol]
    rw [rightTail_of_eq hs, operators_of_lt h hw hd hsymbol ((hop op).1 rfl).1, folded,
      operand_congr hright]
    refine take_congr hw (BinaryOperator.ne_eof_of_ofSymbol? hsymbol) fun _ => ?_
    refine EqBelow.bind hself (Local.operand_local h.isLocal _) ?_
    intro right v u hv hvw hok hu _
    rw [operators_of_ended h.isLocal hu (operand_ended h hv (Nat.lt_trans hvw hd) hok)]
    rfl
  · have hlow : Ended limit w := by
      intro o ho
      by_contra hlt
      have heq := (hop o).2 ⟨Nat.not_le.1 hlt, hended o ho⟩
      exact hs (heq ▸ (BinaryOperator.symbol_of_ofSymbol? ho).symm)
    rw [rightTail_of_ne hs, operators_of_ended h.isLocal hw hlow]

/-! ## Unary operators -/

theorem simpleOperand_of_unary {op : UnaryOperator}
    (hop : UnaryOperator.ofSymbol? w.current.symbol = some op) :
    Grammar.simpleOperand inner w = (do
      let _ ← consume
      let e ← inner.operand UnaryOperator.power
      return .unary op e (Span.between w.current.span e.span) : Parse Expression) w := by
  rw [Grammar.simpleOperand, bind_apply]
  show (match UnaryOperator.ofSymbol? w.current.symbol with
    | some op => _
    | none => _ : Parse Expression) w = _
  rw [hop]

theorem prefixed_of_unary {simple : Parse Expression} {op : UnaryOperator}
    (hop : UnaryOperator.ofSymbol? w.current.symbol = some op) : prefixed simple self w = (do
      let _ ← consume
      let e ← self
      return .unary op e (Span.between w.current.span e.span) : Parse Expression) w := by
  rw [prefixed, bind_apply]
  show (match UnaryOperator.ofSymbol? w.current.symbol with
    | some op => _
    | none => _ : Parse Expression) w = _
  rw [hop]

theorem prefixed_of_none {simple : Parse Expression}
    (hop : UnaryOperator.ofSymbol? w.current.symbol = none) :
    prefixed simple self w = (simple >>= rightTail .power self) w := by
  rw [prefixed, bind_apply]
  show (match UnaryOperator.ofSymbol? w.current.symbol with
    | some op => _
    | none => _ : Parse Expression) w = _
  rw [hop]

/-- A unary operator takes to its right what `^` takes, and nothing is left to be folded. -/
theorem prefixed_eq (h : inner.Unlimited d) (hw : w.Proper) (hd : w.ahead.length < d)
    (hself : self.EqBelow w.ahead.length (Grammar.operand inner UnaryOperator.power)) :
    prefixed (Grammar.simpleOperand inner) self w =
      Grammar.operand inner UnaryOperator.power w := by
  cases hop : UnaryOperator.ofSymbol? w.current.symbol with
  | some op =>
    have hs : w.current.symbol ≠ .eof := UnaryOperator.ne_eof_of_ofSymbol? hop
    rw [prefixed_of_unary hop, operand_eq]
    refine Eq.trans ?_ (bind_congr_at (simpleOperand_of_unary hop) fun _ _ _ => rfl).symm
    simp only [bind_assoc, pure_bind]
    refine take_congr hw hs fun _ => ?_
    refine EqBelow.bind (fun v hv hlt => ?_) (h.isLocal.operand _) ?_
    · exact (hself v hv hlt).trans (h.operand _ v hv (Nat.lt_trans hlt hd)).symm
    · intro e v u hv hvw hok hu _
      rw [h.operand _ v hv (Nat.lt_trans hvw hd)] at hok
      rw [operators_of_ended h.isLocal hu (operand_ended h hv (Nat.lt_trans hvw hd) hok)]
      rfl
  | none =>
    rw [prefixed_of_none hop, operand_eq]
    refine bind_congr_at rfl fun e v hok => ?_
    have hlocal := Local.simpleOperand_local h.isLocal w hw
    have hlength := hlocal.length hw hok
    have hpower : ∀ op : BinaryOperator, op.leftPower ≤ BinaryOperator.power.leftPower := by
      decide
    have hended : Ended BinaryOperator.power.leftPower v := fun op _ => hpower op
    refine rightTail_eq h (by decide) (by decide) ?_ (hlocal.proper hw hok)
      (Nat.lt_of_le_of_lt hlength hd) hended
    exact fun u hu hlt => hself u hu (Nat.lt_of_lt_of_le hlt hlength)

/-! ## The levels -/

section Levels

variable (h : inner.Unlimited d)
include h

theorem unary_eqBelow :
    (unary (Grammar.simpleOperand inner)).EqBelow d (Grammar.operand inner UnaryOperator.power) :=
  nest_eqBelow fun _ _ hw hd hself => prefixed_eq h hw hd hself

theorem multiplicative_eqBelow :
    (multiplicative (Grammar.simpleOperand inner)).EqBelow d (Grammar.operand inner 6) := by
  have hitem : (unary (Grammar.simpleOperand inner)).EqBelow d (Grammar.operand inner 7) :=
    (unary_eqBelow h).trans (.of_eq (operand_congr (by decide)))
  exact leftChain_eqBelow h (by decide) (by decide) (by decide) hitem

theorem additive_eqBelow :
    (additive (Grammar.simpleOperand inner)).EqBelow d (Grammar.operand inner 5) :=
  leftChain_eqBelow h (by decide) (by decide) (by decide) (multiplicative_eqBelow h)

theorem concatenation_eqBelow :
    (concatenation (Grammar.simpleOperand inner)).EqBelow d (Grammar.operand inner 4) := by
  refine nest_eqBelow fun self w hw hd hself => ?_
  have hfirst : Grammar.operand inner 4 w = (Grammar.operand inner 5 >>= operators inner 4) w :=
    operand_absorb h (by decide) w hw hd
  rw [hfirst]
  refine bind_congr_at (additive_eqBelow h w hw hd) fun left v hok => ?_
  have hlocal := Local.operand_local h.isLocal 5 w hw
  have hlength := hlocal.length hw hok
  have hended : Ended 5 v := operand_ended h hw hd hok
  refine rightTail_eq h (by decide) (by decide) ?_ (hlocal.proper hw hok)
    (Nat.lt_of_le_of_lt hlength hd) hended
  exact fun u hu hlt => hself u hu (Nat.lt_of_lt_of_le hlt hlength)

theorem relational_eqBelow :
    (relational (Grammar.simpleOperand inner)).EqBelow d (Grammar.operand inner 2) := by
  have hitem : (concatenation (Grammar.simpleOperand inner)).EqBelow d (Grammar.operand inner 3) :=
    (concatenation_eqBelow h).trans (.of_eq (operand_congr (by decide)))
  exact leftChain_eqBelow h (by decide) (by decide) (by decide) hitem

theorem conjunction_eqBelow :
    (conjunction (Grammar.simpleOperand inner)).EqBelow d (Grammar.operand inner 1) :=
  leftChain_eqBelow h (by decide) (by decide) (by decide) (relational_eqBelow h)

theorem expression_eqBelow :
    (expression (Grammar.simpleOperand inner)).EqBelow d (Grammar.operand inner 0) :=
  leftChain_eqBelow h (by decide) (by decide) (by decide) (conjunction_eqBelow h)

end Levels

end Stratified

/-- An expression is what the stratified grammar makes of the tokens, whatever they are, as long
as there are more levels of nesting than tokens: then no parse ends for want of levels. -/
theorem expression_stratified {depth : Nat} {w : Window} (hw : w.Proper)
    (hdepth : w.ahead.length < depth) :
    Grammar.expression (Level.ofDepth depth) w =
        Stratified.expression (Grammar.simpleOperand (Level.ofDepth depth)) w ∧
      ∀ e, Grammar.expression (Level.ofDepth depth) w = .error e →
        e.cause.isTooDeep = false := by
  constructor
  · rw [Stratified.expression_eqBelow (unlimited_ofDepth depth) w hw hdepth]
    exact (unlimited_ofDepth depth).operand 0 w hw hdepth
  · exact fun e herror => Room.operand_not_tooDeep hw hdepth herror

/-- The window on a text in which a unary operator stands to the right of `^`. -/
def Stratified.mixedOperators : Window :=
  let ts := Tokens.ofPlace (Place.ofText "2 ^ -x ^ y * z".toList)
  ⟨ts.tokens, ts.ending, Position.start⟩

/-- The tree `(2 ^ (-(x ^ y))) * z` on that text. -/
def Stratified.mixedTree : Expression :=
  let name (text : String) (offset : Nat) : Expression :=
    .primary (.var (.name ⟨text, ⟨⟨1, offset + 1, offset⟩, ⟨1, offset + 2, offset + 1⟩⟩⟩))
  .binary .multiply
    (.binary .power (.number (.ofDecimal ⟨2, 0⟩) ⟨⟨1, 1, 0⟩, ⟨1, 2, 1⟩⟩)
      (.unary .negate
        (.binary .power (name "x" 5) (name "y" 9) ⟨⟨1, 6, 5⟩, ⟨1, 11, 10⟩⟩)
        ⟨⟨1, 5, 4⟩, ⟨1, 11, 10⟩⟩)
      ⟨⟨1, 1, 0⟩, ⟨1, 11, 10⟩⟩)
    (name "z" 13) ⟨⟨1, 1, 0⟩, ⟨1, 15, 14⟩⟩

theorem Stratified.proper_mixedOperators : mixedOperators.Proper := by
  obtain ⟨hahead, hending⟩ := (Place.yields_ofPlace (Place.ofText "2 ^ -x ^ y * z".toList)).sound
  exact ⟨hahead, hending⟩

theorem expression_stratified_mixed :
    Stratified.mixedOperators.Proper ∧ Stratified.mixedOperators.ahead.length < 9 ∧
      ∃ w, Grammar.expression (Level.ofDepth 9) Stratified.mixedOperators =
          .ok (Stratified.mixedTree, w) ∧
        Stratified.expression (Grammar.simpleOperand (Level.ofDepth 9))
          Stratified.mixedOperators = .ok (Stratified.mixedTree, w) := by
  have hlength : Stratified.mixedOperators.ahead.length < 9 := by decide +kernel
  have hproper := Stratified.proper_mixedOperators
  have hsame := (expression_stratified hproper hlength).1
  have htree : ∃ w, Grammar.expression (Level.ofDepth 9) Stratified.mixedOperators =
      .ok (Stratified.mixedTree, w) := ⟨_, by rfl⟩
  obtain ⟨w, hw⟩ := htree
  exact ⟨hproper, hlength, w, hw, hsame.symm.trans hw⟩

end LuaSource
