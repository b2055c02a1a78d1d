-- SUMMARY: What a parser does depends on the tokens up to where it stops, and on no others.
import LuaSource.Proofs.Grammar.Meets

/-!
# Locality

Where a parser gives a result or ends with a grammatical fault, it has taken a number of tokens
and looked at the one behind them. On every window that begins with the same tokens it does the
same, as long as the tokens that it takes can be taken there: for that, two tokens more have to
be readable at each of them. A parser that decides by the token behind the current one still
looks at no other tokens, since it goes on to take the current one.
-/

namespace LuaSource

namespace Window

/-! ## Windows that agree -/

/-- The token `k` places behind the current one, or the last one if there are no more. -/
def token (w : Window) (k : Nat) : Token := w.ahead[k]?.getD w.endToken

@[simp] theorem token_zero (w : Window) : w.token 0 = w.current := by
  obtain ⟨ahead, ending, before⟩ := w
  cases ahead <;> rfl

@[simp] theorem token_one (w : Window) : w.token 1 = w.following := rfl

/-- The window `k` tokens on, if the tokens can be taken. -/
def advance : Nat → Window → Except (Located ParseFault) Window
  | 0, w => .ok w
  | k + 1, w => w.consume.bind fun r => advance k r.2

/-- The two windows have the same `k` tokens ahead, and the same one behind these. -/
structure Agree (k : Nat) (w w' : Window) : Prop where
  before : w.before = w'.before
  token : ∀ j ≤ k, w.token j = w'.token j
  proper : w'.Proper

variable {w w' v v' : Window} {k l : Nat}

theorem Agree.refl (hw : w.Proper) : w.Agree k w := ⟨rfl, fun _ _ => rfl, hw⟩

theorem Agree.mono (h : w.Agree l w') (hk : k ≤ l) : w.Agree k w' :=
  ⟨h.before, fun j hj => h.token j (hj.trans hk), h.proper⟩

theorem Agree.current (h : w.Agree k w') : w.current = w'.current := by
  simpa using h.token 0 (Nat.zero_le k)

theorem Agree.following (h : w.Agree k w') (hk : 1 ≤ k) : w.following = w'.following := by
  simpa using h.token 1 hk

theorem consume_eq_ok {t : Token} (h : w.consume = .ok (t, w')) :
    t = w.current ∧ w' = { w with ahead := w.ahead.tail, before := w.current.span.stop } := by
  unfold consume at h
  split at h
  · cases h
  · cases h
    exact ⟨rfl, rfl⟩

theorem token_of_consume {t : Token} (h : w.consume = .ok (t, w')) (j : Nat) :
    w'.token j = w.token (j + 1) := by
  obtain ⟨-, rfl⟩ := consume_eq_ok h
  show w.ahead.tail[j]?.getD _ = w.ahead[j + 1]?.getD _
  rw [List.getElem?_tail]
  rfl

theorem proper_of_consume {t : Token} (hw : w.Proper) (h : w.consume = .ok (t, w')) :
    w'.Proper := by
  obtain ⟨-, rfl⟩ := consume_eq_ok h
  exact ⟨fun t ht => hw.ahead t (List.mem_of_mem_tail ht), hw.ending⟩

theorem Agree.consume {t u : Token} (h : w.Agree (k + 1) v) (hw : w.consume = .ok (t, w'))
    (hv : v.consume = .ok (u, v')) : w'.Agree k v' := by
  refine ⟨?_, fun j hj => ?_, proper_of_consume h.proper hv⟩
  · obtain ⟨-, rfl⟩ := consume_eq_ok hw
    obtain ⟨-, rfl⟩ := consume_eq_ok hv
    exact congrArg (·.span.stop) h.current
  · rw [token_of_consume hw, token_of_consume hv]
    exact h.token (j + 1) (Nat.succ_le_succ hj)

theorem advance_add (w : Window) (k l : Nat) :
    w.advance (k + l) = (w.advance k).bind (advance l) := by
  induction k generalizing w with
  | zero => rw [Nat.zero_add]; rfl
  | succ k ih =>
    rw [Nat.succ_add]
    show w.consume.bind _ = (w.consume.bind _).bind _
    cases w.consume with
    | error e => rfl
    | ok r => exact ih r.2

theorem Agree.advance (h : w.Agree (k + l) v) (hw : w.advance k = .ok w')
    (hv : v.advance k = .ok v') : w'.Agree l v' := by
  induction k generalizing w v with
  | zero =>
    cases hw
    cases hv
    exact h.mono (Nat.le_add_left l 0)
  | succ k ih =>
    unfold Window.advance at hw hv
    cases hcw : w.consume with
    | error e =>
      rw [hcw] at hw
      cases hw
    | ok r =>
      cases hcv : v.consume with
      | error e =>
        rw [hcv] at hv
        cases hv
      | ok s =>
        rw [hcw] at hw
        rw [hcv] at hv
        refine ih (Agree.consume ?_ hcw hcv) hw hv
        rwa [Nat.succ_add] at h

theorem proper_of_advance (hw : w.Proper) (h : w.advance k = .ok w') : w'.Proper := by
  induction k generalizing w with
  | zero =>
    cases h
    exact hw
  | succ k ih =>
    unfold advance at h
    cases hc : w.consume with
    | error e =>
      rw [hc] at h
      cases h
    | ok r =>
      rw [hc] at h
      exact ih (proper_of_consume hw hc) h

theorem token_of_advance (h : w.advance k = .ok w') (j : Nat) : w'.token j = w.token (k + j) := by
  induction k generalizing w with
  | zero =>
    cases h
    rw [Nat.zero_add]
  | succ k ih =>
    unfold advance at h
    cases hc : w.consume with
    | error e =>
      rw [hc] at h
      cases h
    | ok r =>
      rw [hc] at h
      rw [ih h, token_of_consume hc, Nat.succ_add]

theorem ahead_of_advance (h : w.advance k = .ok w') : w'.ahead = w.ahead.drop k := by
  induction k generalizing w with
  | zero =>
    cases h
    rfl
  | succ k ih =>
    unfold advance at h
    cases hc : w.consume with
    | error e =>
      rw [hc] at h
      cases h
    | ok r =>
      rw [hc] at h
      obtain ⟨-, hr⟩ := consume_eq_ok hc
      rw [ih h, hr, List.drop_tail]

theorem ending_of_advance (h : w.advance k = .ok w') : w'.ending = w.ending := by
  induction k generalizing w with
  | zero =>
    cases h
    rfl
  | succ k ih =>
    unfold advance at h
    cases hc : w.consume with
    | error e =>
      rw [hc] at h
      cases h
    | ok r =>
      rw [hc] at h
      obtain ⟨-, hr⟩ := consume_eq_ok hc
      rw [ih h, hr]

/-! ## Readable tokens -/

variable {n : Nat} {e : Located LexError}

theorem errorWithin?_eq_some_iff :
    w.errorWithin? n = some e ↔ w.ending = .error e ∧ w.ahead.length ≤ n - 1 := by
  rw [errorWithin?]
  cases w.ending with
  | ok t => simp
  | error e' => simp [and_comm]

theorem errorWithin?_eq_none_iff :
    w.errorWithin? n = none ↔ ∀ e, w.ending = .error e → n - 1 < w.ahead.length := by
  rw [errorWithin?]
  cases w.ending with
  | ok t => simp
  | error e => simp

/-- Tokens can be taken as long as the two behind each of them can be read. -/
theorem advance_of_none (h : w.errorWithin? (k + 2) = none) : ∃ w', w.advance k = .ok w' := by
  induction k generalizing w with
  | zero => exact ⟨w, rfl⟩
  | succ k ih =>
    have hlength := errorWithin?_eq_none_iff.1 h
    have hthree : w.errorWithin? 3 = none := errorWithin?_eq_none_iff.2 fun e he => by
      have hlt := hlength e he
      omega
    have hrest : Window.errorWithin? ⟨w.ahead.tail, w.ending, w.current.span.stop⟩ (k + 2) = none :=
      errorWithin?_eq_none_iff.2 fun e he => by
        have hlt := hlength e he
        rw [List.length_tail]
        omega
    obtain ⟨w', hw'⟩ := ih hrest
    refine ⟨w', ?_⟩
    rw [advance, consume, hthree]
    exact hw'

theorem advance_of_some (htwo : w.errorWithin? 2 = none) (h : w.errorWithin? (k + 2) = some e) :
    w.advance k = .error e.toFault := by
  induction k generalizing w with
  | zero =>
    rw [htwo] at h
    cases h
  | succ k ih =>
    obtain ⟨he, hlength⟩ := errorWithin?_eq_some_iff.1 h
    cases hthree : w.errorWithin? 3 with
    | some e' =>
      obtain ⟨he', -⟩ := errorWithin?_eq_some_iff.1 hthree
      rw [he] at he'
      cases he'
      rw [advance, consume, hthree]
      rfl
    | none =>
      have hlt := errorWithin?_eq_none_iff.1 hthree e he
      rw [advance, consume, hthree]
      refine ih (errorWithin?_eq_none_iff.2 fun e' _ => ?_) (errorWithin?_eq_some_iff.2 ⟨he, ?_⟩)
      · rw [List.length_tail]
        omega
      · rw [List.length_tail]
        omega

/-- Tokens cannot be taken if one of the two behind the last of them cannot be read. -/
theorem advance_succ_of_some (h : w.errorWithin? (k + 1 + 2) = some e) :
    w.advance (k + 1) = .error e.toFault := by
  cases htwo : w.errorWithin? 2 with
  | none => exact advance_of_some htwo h
  | some e' =>
    obtain ⟨he, -⟩ := errorWithin?_eq_some_iff.1 h
    obtain ⟨he', hlength⟩ := errorWithin?_eq_some_iff.1 htwo
    rw [he] at he'
    cases he'
    have hthree : w.errorWithin? 3 = some e :=
      errorWithin?_eq_some_iff.2 ⟨he, Nat.le_succ_of_le hlength⟩
    rw [advance, consume, hthree]
    rfl

end Window

/-! ## Local parsers -/

namespace Parse

open Parsing

variable {α β : Type} {p : Parse α} {f : α → Parse β} {w : Window} {m : Nat} {n : α → Nat}

/-- What a parser does at `w` is decided by the tokens up to where it stops. It takes `n a` tokens
at least for a result `a`, and `m` at least before a grammatical fault. -/
structure LocalAt (p : Parse α) (w : Window) (m : Nat) (n : α → Nat) : Prop where
  ok : ∀ {a w'}, p w = .ok (a, w') → ∃ k, n a ≤ k ∧ k ≤ w.ahead.length ∧
    ∀ v, w.Agree k v → p v = (v.advance k).map fun v' => (a, v')
  fault : ∀ {e}, p w = .error e → e.cause.isGrammatical = true → ∃ k, m ≤ k ∧
    k ≤ w.ahead.length ∧ e.span = (w.token k).span ∧
    ∀ v, w.Agree k v → p v = (v.advance k).bind fun _ => .error e

/-- A result is given where the parser stops. -/
theorem LocalAt.advance (h : p.LocalAt w m n) (hw : w.Proper) {a : α} {w' : Window}
    (hok : p w = .ok (a, w')) : ∃ k, n a ≤ k ∧ k ≤ w.ahead.length ∧ w.advance k = .ok w' ∧
      ∀ v, w.Agree k v → p v = (v.advance k).map fun v' => (a, v') := by
  obtain ⟨k, hn, hk, hv⟩ := h.ok hok
  refine ⟨k, hn, hk, ?_, hv⟩
  have h' := hv w (.refl hw)
  rw [hok] at h'
  cases hadv : w.advance k with
  | error e =>
    rw [hadv] at h'
    cases h'
  | ok v =>
    rw [hadv] at h'
    cases h'
    rfl

theorem LocalAt.proper (h : p.LocalAt w m n) (hw : w.Proper) {a : α} {w' : Window}
    (hok : p w = .ok (a, w')) : w'.Proper := by
  obtain ⟨k, -, -, hadv, -⟩ := h.advance hw hok
  exact Window.proper_of_advance hw hadv

/-- The tokens that a parser takes are no longer ahead. -/
theorem LocalAt.length (h : p.LocalAt w m n) (hw : w.Proper) {a : α} {w' : Window}
    (hok : p w = .ok (a, w')) : w'.ahead.length + n a ≤ w.ahead.length := by
  obtain ⟨k, hn, hk, hadv, -⟩ := h.advance hw hok
  rw [Window.ahead_of_advance hadv, List.length_drop]
  omega

theorem LocalAt.mono {m' : Nat} {n' : α → Nat} (h : p.LocalAt w m n) (hm : m' ≤ m)
    (hn : ∀ a, n' a ≤ n a) : p.LocalAt w m' n' where
  ok hok := by
    obtain ⟨k, hk, h⟩ := h.ok hok
    exact ⟨k, (hn _).trans hk, h⟩
  fault he hg := by
    obtain ⟨k, hk, h⟩ := h.fault he hg
    exact ⟨k, hm.trans hk, h⟩

/-! ## Rules -/

theorem LocalAt.pure {a : α} (hn : n a = 0) : (pure a : Parse α).LocalAt w m n where
  ok h := by
    cases h
    exact ⟨0, hn.le, Nat.zero_le _, fun _ _ => rfl⟩
  fault h := by cases h

theorem LocalAt.fail {fault : String → ParseFault} : (fail fault : Parse α).LocalAt w 0 n where
  ok h := by cases h
  fault h _ := by
    cases h
    refine ⟨0, le_rfl, Nat.zero_le _, by rw [Window.token_zero], fun v hv => ?_⟩
    show Except.error _ = Except.error _
    rw [hv.current]

/-- A fault that is not grammatical. -/
theorem LocalAt.ungrammatical {fault : String → ParseFault}
    (h : ∀ near, (fault near).isGrammatical = false) :
    (Parsing.fail fault : Parse α).LocalAt w m n where
  ok h := by cases h
  fault he hg := by
    cases he
    rw [h] at hg
    cases hg

/-- The second parser has to take what the first one leaves to be taken. -/
theorem LocalAt.bind {m' : Nat} {n' : β → Nat} (hp : p.LocalAt w m' n) (hw : w.Proper)
    (hm : m ≤ m')
    (hf : ∀ a w', w'.Proper → p w = .ok (a, w') →
      (f a).LocalAt w' (m - n a) fun b => n' b - n a) :
    (p >>= f).LocalAt w m n' := by
  have hcut : ∀ {v : Window} {k : Nat} {a : α},
      p v = ((v.advance k).map fun v' => (a, v')) →
      (p >>= f) v = (v.advance k).bind (f a) := by
    intro v k a h
    rw [bind_apply, h]
    cases v.advance k <;> rfl
  constructor
  · intro b w'' hok
    obtain ⟨a, w', h₁, h₂⟩ := bind_eq_ok_iff.1 hok
    obtain ⟨k, hk, hkw, hadv, hv⟩ := hp.advance hw h₁
    have hw' := Window.proper_of_advance hw hadv
    obtain ⟨l, hl, hlw, hv'⟩ := (hf a w' hw' h₁).ok h₂
    rw [Window.ahead_of_advance hadv, List.length_drop] at hlw
    refine ⟨k + l, by omega, by omega, fun v hagree => ?_⟩
    rw [hcut (hv v (hagree.mono (Nat.le_add_right k l))), Window.advance_add]
    cases hadv' : v.advance k with
    | error e => rfl
    | ok v' => exact hv' v' (hagree.advance hadv hadv')
  · intro e herr hg
    rcases bind_eq_error_iff.1 herr with h₁ | ⟨a, w', h₁, h₂⟩
    · obtain ⟨k, hk, hkw, hspan, hv⟩ := hp.fault h₁ hg
      refine ⟨k, hm.trans hk, hkw, hspan, fun v hagree => ?_⟩
      rw [bind_apply, hv v hagree]
      cases v.advance k <;> rfl
    · obtain ⟨k, hk, hkw, hadv, hv⟩ := hp.advance hw h₁
      have hw' := Window.proper_of_advance hw hadv
      obtain ⟨l, hl, hlw, hspan, hv'⟩ := (hf a w' hw' h₁).fault h₂ hg
      rw [Window.ahead_of_advance hadv, List.length_drop] at hlw
      refine ⟨k + l, by omega, by omega, ?_, fun v hagree => ?_⟩
      · rw [hspan, Window.token_of_advance hadv]
      · rw [hcut (hv v (hagree.mono (Nat.le_add_right k l))), Window.advance_add]
        cases hadv' : v.advance k with
        | error e => rfl
        | ok v' => exact hv' v' (hagree.advance hadv hadv')

theorem LocalAt.congr {q : Parse α} (hq : q.LocalAt w m n) (hw : w.Proper)
    (h : ∀ v, w.Agree 0 v → p v = q v) : p.LocalAt w m n where
  ok hok := by
    obtain ⟨k, hn, hk, hv⟩ := hq.ok ((h w (.refl hw)).symm.trans hok)
    exact ⟨k, hn, hk, fun v ha => (h v (ha.mono (Nat.zero_le k))).trans (hv v ha)⟩
  fault he hg := by
    obtain ⟨k, hm, hk, hspan, hv⟩ := hq.fault ((h w (.refl hw)).symm.trans he) hg
    exact ⟨k, hm, hk, hspan, fun v ha => (h v (ha.mono (Nat.zero_le k))).trans (hv v ha)⟩

/-- A parser that goes on by one token at least may look at the token behind the current one. -/
theorem LocalAt.congr_one {q : Parse α} (hq : q.LocalAt w 1 n) (hn : ∀ a, 1 ≤ n a)
    (hw : w.Proper) (h : ∀ v, w.Agree 1 v → p v = q v) : p.LocalAt w 1 n where
  ok hok := by
    obtain ⟨k, hk, hkw, hv⟩ := hq.ok ((h w (.refl hw)).symm.trans hok)
    exact ⟨k, hk, hkw, fun v ha => (h v (ha.mono ((hn _).trans hk))).trans (hv v ha)⟩
  fault he hg := by
    obtain ⟨k, hk, hkw, hspan, hv⟩ := hq.fault ((h w (.refl hw)).symm.trans he) hg
    exact ⟨k, hk, hkw, hspan, fun v ha => (h v (ha.mono hk)).trans (hv v ha)⟩

theorem LocalAt.current {f : Token → Parse α} (hw : w.Proper)
    (h : (f w.current).LocalAt w m n) : (current >>= f).LocalAt w m n :=
  h.congr hw fun v hv => by rw [hv.current]; rfl

theorem LocalAt.symbol {f : Symbol → Parse α} (hw : w.Proper)
    (h : (f w.current.symbol).LocalAt w m n) : (symbol >>= f).LocalAt w m n :=
  h.congr hw fun v hv => by rw [hv.current]; rfl

theorem LocalAt.onSameLine {f : Bool → Parse α} (hw : w.Proper)
    (h : ∀ b, (f b).LocalAt w m n) : (onSameLine >>= f).LocalAt w m n :=
  (h (w.current.span.start.line == w.before.line)).congr hw fun v hv => by
    rw [hv.current, hv.before]; rfl

theorem LocalAt.followingSymbol {f : Symbol → Parse α} (hw : w.Proper) (hn : ∀ a, 1 ≤ n a)
    (h : (f w.following.symbol).LocalAt w 1 n) : (followingSymbol >>= f).LocalAt w 1 n :=
  h.congr_one hn hw fun v hv => by rw [hv.following le_rfl]; rfl

/-! ## Parsers that are local everywhere -/

/-- A parser that looks at no token behind the one at which it stops. -/
def Local (p : Parse α) : Prop := ∀ w, w.Proper → p.LocalAt w 0 fun _ => 0

/-- Behind a parser that has taken enough, any local one may follow. -/
theorem LocalAt.thenLocal {c : Nat} (hp : p.LocalAt w m fun _ => c) (hw : w.Proper) (hm : m ≤ c)
    (hf : ∀ a, (f a).Local) : (p >>= f).LocalAt w m fun _ => c := by
  refine hp.bind hw le_rfl fun a w' hw' _ => (hf a w' hw').mono ?_ ?_
  · exact (Nat.sub_eq_zero_of_le hm).le
  · exact fun _ => (Nat.sub_self c).le

theorem LocalAt.zero {c : Nat} (h : p.LocalAt w m fun _ => c) : p.LocalAt w 0 fun _ => 0 :=
  h.mono (Nat.zero_le m) fun _ => Nat.zero_le c

theorem Local.pure {a : α} : (pure a : Parse α).Local := fun _ _ => .pure rfl

theorem Local.fail {fault : String → ParseFault} : (Parsing.fail fault : Parse α).Local :=
  fun _ _ => .fail

theorem Local.bind (hp : p.Local) (hf : ∀ a, (f a).Local) : (p >>= f).Local :=
  fun w hw => (hp w hw).thenLocal hw le_rfl hf

theorem Local.map (hp : p.Local) (g : α → β) : (g <$> p).Local := by
  rw [map_eq_pure_bind]
  exact hp.bind fun _ => .pure

theorem Local.current {f : Token → Parse α} (hf : ∀ t, (f t).Local) :
    (current >>= f).Local := fun w hw => .current hw (hf _ w hw)

theorem Local.symbol {f : Symbol → Parse α} (hf : ∀ s, (f s).Local) :
    (symbol >>= f).Local := fun w hw => .symbol hw (hf _ w hw)

/-! ## Single tokens -/

theorem consume_localAt (hw : w.Proper) (hs : w.current.symbol ≠ .eof) :
    (consume : Parse _).LocalAt w m fun _ => 1 where
  ok hok := by
    refine ⟨1, le_rfl, ?_, fun v hv => ?_⟩
    · rw [hw.ahead_eq hs]
      exact Nat.succ_le_succ (Nat.zero_le _)
    · obtain ⟨rfl, -⟩ := Window.consume_eq_ok hok
      show v.consume = (v.consume.bind _).map _
      cases hc : v.consume with
      | error e => rfl
      | ok r =>
        obtain ⟨t, v'⟩ := r
        obtain ⟨rfl, -⟩ := Window.consume_eq_ok hc
        rw [hv.current]
        rfl
  fault he hg := by
    rw [consume_apply, Window.consume] at he
    split at he
    · cases he
      cases hg
    · cases he

/-- Taking the current token, whatever comes then. -/
theorem LocalAt.take {f : Token → Parse α} (hw : w.Proper) (hs : w.current.symbol ≠ .eof)
    (hm : m ≤ 1) (hf : ∀ t, (f t).Local) : (consume >>= f).LocalAt w m fun _ => 1 :=
  (consume_localAt hw hs).thenLocal hw hm hf

theorem accept_localAt {s : Symbol} (hw : w.Proper) (hs : s ≠ .eof) :
    (accept s : Parse _).LocalAt w m fun t => if t.isSome then 1 else 0 := by
  refine .symbol hw ?_
  split
  · next h =>
    exact (consume_localAt hw (h ▸ hs)).bind hw le_rfl fun t w' _ _ => .pure rfl
  · exact .pure rfl

theorem accept_local {s : Symbol} (hs : s ≠ .eof) : (accept s : Parse _).Local :=
  fun _ hw => (accept_localAt hw hs).mono le_rfl fun _ => Nat.zero_le _

theorem expect_localAt {s : Symbol} (hw : w.Proper) (hs : s ≠ .eof) :
    (expect s : Parse _).LocalAt w 0 fun _ => 1 := by
  refine .symbol hw ?_
  split
  · next h => exact consume_localAt hw (h ▸ hs)
  · exact .fail

theorem expect_local {s : Symbol} (hs : s ≠ .eof) : (expect s : Parse _).Local :=
  fun _ hw => (expect_localAt hw hs).zero

theorem expectClosing_local {closer opener : Symbol} {line : Nat} (hs : closer ≠ .eof) :
    (expectClosing closer opener line : Parse _).Local := by
  intro w hw
  refine .current hw ?_
  split
  · next h => exact (consume_localAt (m := 0) hw (h ▸ hs)).zero
  · split
    · exact .fail
    · exact .fail

theorem expectName_localAt (hw : w.Proper) : (expectName : Parse _).LocalAt w 0 fun _ => 1 :=
  (expect_localAt hw (by decide)).thenLocal hw (Nat.zero_le _) fun _ => .pure

theorem expectName_local : (expectName : Parse _).Local :=
  fun _ hw => (expectName_localAt hw).zero

/-- Where a name is the current token, it is taken in any case. -/
theorem expectName_localAt_name (hw : w.Proper) (hs : w.current.symbol = .name) :
    (expectName : Parse _).LocalAt w 1 fun _ => 1 := by
  refine LocalAt.thenLocal (c := 1) ?_ hw le_rfl fun _ => .pure
  refine .symbol hw ?_
  rw [if_pos hs]
  exact consume_localAt hw (by simp [hs])

/-! ## Repetition -/

section Loop

variable {step : α → Parse (α ⊕ β)} {a : α}

/-- A step that goes on takes a token at least. -/
def StepLocal (step : α → Parse (α ⊕ β)) : Prop :=
  ∀ a w, w.Proper → (step a).LocalAt w 0 (Sum.elim (fun _ => 1) fun _ => 0)

/-- A step that takes a token in any case. -/
theorem LocalAt.goesOn {p : Parse (α ⊕ β)} (h : p.LocalAt w 0 fun _ => 1) :
    p.LocalAt w 0 (Sum.elim (fun _ => 1) fun _ => 0) :=
  h.mono le_rfl fun r => by cases r <;> simp

/-- All that matters of the tokens that bound a repetition is that there are enough. -/
theorem loopAlong_eq (hstep : StepLocal step) {ts us : List Token} (hw : w.Proper)
    (hts : w.ahead.length ≤ ts.length) (hus : w.ahead.length ≤ us.length) :
    loopAlong step ts a w = loopAlong step us a w := by
  induction ts generalizing a w us with
  | nil =>
    cases us with
    | nil => rfl
    | cons u us =>
      cases hr : step a w with
      | error e =>
        simp only [loopAlong, bind_apply, hr]
        rfl
      | ok r =>
        obtain ⟨r, w'⟩ := r
        have hlt := (hstep a w hw).length hw hr
        cases r with
        | inl a' => exact absurd (hlt.trans hts) (by simp)
        | inr b =>
          simp only [loopAlong, bind_apply, hr]
          rfl
  | cons t ts ih =>
    cases hr : step a w with
    | error e => cases us <;> (simp only [loopAlong, bind_apply, hr]; rfl)
    | ok r =>
      obtain ⟨r, w'⟩ := r
      have hlt := (hstep a w hw).length hw hr
      cases r with
      | inl a' =>
        cases us with
        | nil => exact absurd (hlt.trans hus) (by simp)
        | cons u us =>
          simp only [loopAlong, bind_apply, hr]
          simp only [Sum.elim_inl, List.length_cons] at hlt hts hus
          show loopAlong step ts a' w' = loopAlong step us a' w'
          exact ih ((hstep a w hw).proper hw hr) (by omega) (by omega)
      | inr b => cases us <;> (simp only [loopAlong, bind_apply, hr]; rfl)

/-- There is always a token left for one more step. -/
theorem loop_eq (hstep : StepLocal step) (hw : w.Proper) :
    loop step a w = (step a >>= fun r => r.elim (loop step) pure) w := by
  rw [bind_apply, loop_apply]
  cases hr : step a w with
  | error e => cases w.ahead <;> (simp only [loopAlong, bind_apply, hr]; rfl)
  | ok r =>
    obtain ⟨r, w'⟩ := r
    have hlt := (hstep a w hw).length hw hr
    cases r with
    | inl a' =>
      cases hahead : w.ahead with
      | nil =>
        rw [hahead] at hlt
        exact absurd hlt (by simp)
      | cons t ts =>
        simp only [loopAlong, bind_apply, hr]
        simp only [Sum.elim_inl, hahead, List.length_cons] at hlt
        show loopAlong step ts a' w' = loopAlong step w'.ahead a' w'
        exact loopAlong_eq hstep ((hstep a w hw).proper hw hr) (by omega) le_rfl
    | inr b => cases w.ahead <;> (simp only [loopAlong, bind_apply, hr]; rfl)

theorem loop_local (hstep : StepLocal step) (a : α) : (loop step a).Local := by
  intro w hw
  induction hlen : w.ahead.length using Nat.strong_induction_on generalizing a w with
  | _ length ih =>
    refine LocalAt.congr (q := step a >>= fun r => r.elim (loop step) pure) ?_ hw fun v hv =>
      loop_eq hstep hv.proper
    refine (hstep a w hw).bind hw le_rfl fun r w' hw' hr => ?_
    have hlt := (hstep a w hw).length hw hr
    cases r with
    | inl a' => exact (ih _ (by simp at hlt; omega) a' w' hw' rfl).mono (Nat.zero_le _) (by simp)
    | inr b => exact .pure rfl

end Loop

/-- From the state `a` at `w`, a repetition comes to the state `a'` at `w'`, on every window with
the same tokens up to there. -/
def Passes (step : α → Parse (α ⊕ β)) (a : α) (w : Window) (a' : α) (w' : Window) : Prop :=
  ∃ k, w.advance k = .ok w' ∧
    ∀ v, w.Agree k v → loop step a v = (v.advance k).bind (loop step a')

section Passes

variable {step : α → Parse (α ⊕ β)} {a a' a'' : α} {w w' w'' : Window}

theorem Passes.refl : Passes step a w a w := ⟨0, rfl, fun _ _ => rfl⟩

theorem Passes.trans (h : Passes step a w a' w') (h' : Passes step a' w' a'' w'') :
    Passes step a w a'' w'' := by
  obtain ⟨k, hadvance, hloop⟩ := h
  obtain ⟨l, hadvance', hloop'⟩ := h'
  refine ⟨k + l, ?_, fun v hv => ?_⟩
  · rw [Window.advance_add, hadvance]
    exact hadvance'
  · rw [hloop v (hv.mono (Nat.le_add_right k l)), Window.advance_add]
    cases hadv : v.advance k with
    | error e => rfl
    | ok v' => exact hloop' v' (hv.advance hadvance hadv)

/-- A step that goes on. -/
theorem Passes.once (hstep : StepLocal step) (hw : w.Proper) (h : step a w = .ok (.inl a', w')) :
    Passes step a w a' w' := by
  obtain ⟨k, -, -, hadvance, hv⟩ := (hstep a w hw).advance hw h
  refine ⟨k, hadvance, fun v hagree => ?_⟩
  rw [loop_eq hstep hagree.proper, bind_apply, hv v hagree]
  cases v.advance k <;> rfl

end Passes

section Separated

variable {separator : Symbol} {item : Token → Parse α}

theorem separatedStep_local (hs : separator ≠ .eof) (hitem : ∀ t, (item t).Local) :
    StepLocal (separatedStep separator item) := by
  intro as w hw
  refine (accept_localAt (m := 0) hw hs).bind hw le_rfl fun t w' hw' _ => ?_
  cases t with
  | none => exact .pure rfl
  | some t => exact (hitem t w' hw').bind hw' le_rfl fun _ _ _ _ => .pure rfl

theorem separated_local (hs : separator ≠ .eof) (hitem : ∀ t, (item t).Local) (first : α) :
    (separated separator item first).Local :=
  loop_local (separatedStep_local hs hitem) _

theorem commaList_local {item : Parse α} (hitem : item.Local) : (commaList item).Local :=
  hitem.bind fun first => separated_local (by decide) (fun _ => hitem) first

end Separated

end Parse

end LuaSource
