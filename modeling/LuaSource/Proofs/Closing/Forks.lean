-- SUMMARY: What a fault says is missing, by what a closer and a name would do in place of its token.
import LuaSource.Proofs.Closing.Openers
import LuaSource.Proofs.Grammar.Gives
import LuaSource.Proofs.Grammar.InStep
import LuaSource.Proofs.Grammar.Locality
import LuaSource.Proofs.Grammar.Rules

/-!
# Forks

Three sources with the same tokens before some place are parsed in step up to there. The first one
goes on with any token, the second one with a closer and the third one with a name. If the first
one has its fault there and the second one is a program, the fault either says that the closer is
missing, or the third one goes on, since a name begins whatever else could be expected.
-/

namespace LuaSource

/-- What a fault says is missing. -/
def ParseFault.missing? : ParseFault → Option String
  | expected s _ | unclosed s _ _ _ => some s
  | _ => none

/-- The closers behind a block. -/
def Symbol.blockClosers : List Symbol := [kwEnd, kwUntil]

namespace Window

variable {w w' v : Window} {k m : Nat} {s : Symbol}

theorem advance_injective (hk : k ≤ w.ahead.length) (hm : m ≤ w.ahead.length)
    (h : w.advance k = .ok w') (h' : w.advance m = .ok w') : k = m := by
  have hdrop := congrArg List.length
    ((ahead_of_advance h).symm.trans (ahead_of_advance h'))
  rw [List.length_drop, List.length_drop] at hdrop
  omega

/-- The window `v` has the tokens of `w` up to `k` places on. There it has the symbol `s`, and it
can be read to its end. -/
structure Varies (w : Window) (k : Nat) (s : Symbol) (v : Window) : Prop extends Ready v where
  before : v.before = w.before
  token : ∀ j < k, v.token j = w.token j
  symbol : (v.token k).symbol = s
  start : (v.token k).span.start = (w.token k).span.start

namespace Varies

theorem agree (h : w.Varies k s v) (hm : m < k) : w.Agree m v :=
  ⟨h.before.symm, fun j hj => (h.token j (Nat.lt_of_le_of_lt hj hm)).symm, h.proper⟩

theorem current (h : w.Varies (k + 1) s v) : v.current = w.current := by
  have htoken := h.token 0 (Nat.succ_pos k)
  rwa [token_zero, token_zero] at htoken

theorem following (h : w.Varies (k + 2) s v) : v.following = w.following := by
  have htoken := h.token 1 (by omega)
  rwa [token_one, token_one] at htoken

theorem start_current (h : w.Varies k s v) : v.current.span.start = w.current.span.start := by
  cases k with
  | zero =>
    have hstart := h.start
    rwa [token_zero, token_zero] at hstart
  | succ k => rw [h.current]

theorem symbol_following (h : w.Varies 1 s v) : v.following.symbol = s := by
  rw [← token_one]
  exact h.symbol

theorem symbol_current (h : w.Varies 0 s v) : v.current.symbol = s := by
  rw [← token_zero]
  exact h.symbol

theorem length (h : w.Varies k s v) (hs : s ≠ .eof) : k < v.ahead.length := by
  by_contra hlength
  have hnone : v.ahead[k]? = none := List.getElem?_eq_none (Nat.le_of_not_lt hlength)
  have hsymbol := h.symbol
  rw [Window.token, hnone, Option.getD_none, h.proper.symbol_endToken] at hsymbol
  exact hs hsymbol.symm

theorem consume {t : Token} (h : w.Varies (k + 1) s v) (hw : w.consume = .ok (t, w')) :
    ∃ v', v.consume = .ok (t, v') ∧ w'.Varies k s v' := by
  obtain ⟨eof, heof⟩ := h.readable
  have hv := consume_of_ok heof
  obtain ⟨rfl, hw'⟩ := consume_eq_ok hw
  rw [h.current] at hv
  refine ⟨_, hv, ⟨proper_of_consume h.proper hv, eof, heof⟩, by rw [hw'], fun j hj => ?_, ?_, ?_⟩
  · rw [token_of_consume hv, token_of_consume hw]
    exact h.token (j + 1) (Nat.succ_lt_succ hj)
  · rw [token_of_consume hv]
    exact h.symbol
  · rw [token_of_consume hv, token_of_consume hw]
    exact h.start

theorem advance (h : w.Varies k s v) (hm : m ≤ k) (hw : w.advance m = .ok w') :
    ∃ v', v.advance m = .ok v' ∧ w'.Varies (k - m) s v' := by
  induction m generalizing w v k with
  | zero =>
    cases hw
    exact ⟨v, rfl, h⟩
  | succ m ih =>
    obtain ⟨k, rfl⟩ : ∃ l, k = l + 1 := ⟨k - 1, by omega⟩
    unfold Window.advance at hw
    cases hc : w.consume with
    | error e =>
      rw [hc] at hw
      cases hw
    | ok r =>
      rw [hc] at hw
      obtain ⟨v', hv', h'⟩ := h.consume hc
      obtain ⟨v'', hv'', h''⟩ := ih h' (Nat.le_of_succ_le_succ hm) hw
      refine ⟨v'', ?_, by rwa [Nat.succ_sub_succ]⟩
      rw [Window.advance, hv']
      exact hv''

end Varies

end Window

/-- Up to the token `k` places on, the three windows are the same. There the second one has the
closer `c` and the third one a name. The first one has no other token with the span of its token
there, which is on the line of the token before it. -/
structure Fork (c : Symbol) (k : Nat) (w v n : Window) : Prop where
  proper : w.Proper
  length : k ≤ w.ahead.length
  joined : ∀ {w'}, w.advance k = .ok w' → w'.Joined
  spans : ∀ j ≤ w.ahead.length, (w.token j).span = (w.token k).span → j = k
  mem : c ∈ Symbol.closers
  closer : w.Varies k c v
  name : w.Varies k .name n

namespace Fork

variable {c : Symbol} {k m : Nat} {w w' v n : Window}

theorem advance (h : Fork c k w v n) (hm : m ≤ k) (hw : w.advance m = .ok w') :
    ∃ v' n', v.advance m = .ok v' ∧ n.advance m = .ok n' ∧ Fork c (k - m) w' v' n' := by
  obtain ⟨v', hv', hcloser⟩ := h.closer.advance hm hw
  obtain ⟨n', hn', hname⟩ := h.name.advance hm hw
  have hlength : w'.ahead.length = w.ahead.length - m := by
    rw [Window.ahead_of_advance hw, List.length_drop]
  have hle := h.length
  refine ⟨v', n', hv', hn', Window.proper_of_advance h.proper hw, by omega, fun hw'' => ?_,
    fun j hj hspan => ?_, h.mem, hcloser, hname⟩
  · refine h.joined ?_
    rw [← Nat.add_sub_of_le hm, Window.advance_add, hw]
    exact hw''
  · rw [Window.token_of_advance hw, Window.token_of_advance hw, Nat.add_sub_of_le hm] at hspan
    have hindex := h.spans (m + j) (by omega) hspan
    omega

theorem proper_of_eq {u : Window} (h : Fork c k w v n) (hu : u = w ∨ u = n) : u.Proper := by
  rcases hu with rfl | rfl
  · exact h.proper
  · exact h.name.proper

theorem following_of_eq {u : Window} (h : Fork c (k + 2) w v n) (hu : u = w ∨ u = n) :
    u.following = w.following := by
  rcases hu with rfl | rfl
  · rfl
  · exact h.name.following

theorem current_of_eq {u : Window} (h : Fork c (k + 1) w v n) (hu : u = w ∨ u = n) :
    u.current = w.current := by
  rcases hu with rfl | rfl
  · rfl
  · exact h.name.current

end Fork

namespace Parse

variable {α β : Type} {p q : Parse α} {f : α → Parse β} {c s : Symbol} {k m j : Nat}
  {w w' v n n' : Window} {a : α} {Q Q' : α → Prop} {R : β → Prop}

/-- The token `k` places on is taken, wherever the parser stops. -/
def Beyond (p : Parse α) (k : Nat) (n : Window) : Prop := p.LocalAt n (k + 1) fun _ => k + 1

/-- How a parser runs on the windows of a fork. Where it stops at the fork in the first one, it
stops there in the second one, and either stops there in the third one or goes on beyond. A fault
there says that the closer is missing, or the parser goes on beyond in the third one, unless it
stops there with a result that has the property `Q`. -/
structure Forked (p : Parse α) (Q : α → Prop) (c : Symbol) (k : Nat) (w v n : Window) : Prop where
  ok : ∀ {a w'}, p w = .ok (a, w') → w.advance k = .ok w' →
    (∃ v', v.advance k = .ok v' ∧ p v = .ok (a, v')) ∧
      (p.Beyond k n ∨ ∃ n', n.advance k = .ok n' ∧ p n = .ok (a, n'))
  fault : ∀ {e}, p w = .error e → e.cause.isGrammatical = true → e.span = (w.token k).span →
    e.cause.missing? = some c.spelling ∨
      ((w.token k).symbol = .eof → c ∉ Symbol.blockClosers) ∧
        (p.Beyond k n ∨ ∃ a n', Q a ∧ n.advance k = .ok n' ∧ p n = .ok (a, n'))

/-- What is known of a parser that gives a result in the second window. -/
def ForksAt (p : Parse α) (Q : α → Prop) (c : Symbol) (k : Nat) (w v n : Window) : Prop :=
  ∀ b v', p v = .ok (b, v') → p.Forked Q c k w v n

/-- A parser that runs like that at every fork, and in the third window does not stop where there is
a fault in the first one. -/
structure Forks (p : Parse α) (c : Symbol) : Prop where
  toLocal : p.Local
  forksAt : ∀ {k w v n}, Fork c k w v n → p.ForksAt (fun _ => False) c k w v n

/-! ## Going on -/

theorem Beyond.bind (h : p.Beyond k n) (hn : n.Proper)
    (hf : ∀ {a n'}, n'.Proper → p n = .ok (a, n') → (f a).LocalAt n' 0 fun _ => 0) :
    (p >>= f).Beyond k n :=
  LocalAt.bind h hn le_rfl fun _ _ hn' hok =>
    (hf hn' hok).mono (Nat.sub_self _).le fun _ => (Nat.sub_self _).le

theorem Beyond.congr (h : q.Beyond k n) (hn : n.Proper)
    (hpq : ∀ u, n.Agree (k + 1) u → p u = q u) : p.Beyond k n where
  ok hok := by
    rw [hpq n (.refl hn)] at hok
    obtain ⟨i, hi, hle, hagree⟩ := LocalAt.ok h hok
    exact ⟨i, hi, hle, fun u hu => (hpq u (hu.mono hi)).trans (hagree u hu)⟩
  fault he hg := by
    rw [hpq n (.refl hn)] at he
    obtain ⟨i, hi, hle, hspan, hagree⟩ := LocalAt.fault h he hg
    exact ⟨i, hi, hle, hspan, fun u hu => (hpq u (hu.mono hi)).trans (hagree u hu)⟩

/-- Where a call is not ambiguous. -/
theorem Beyond.onSameLine (h : p.Beyond k n) (hn : n.Proper) (hjoined : n.Joined) :
    (Parsing.onSameLine >>= fun b => if b then p else q).Beyond k n := by
  refine h.congr hn fun u hu => ?_
  have hline : (u.current.span.start.line == u.before.line) = true := by
    rw [← hu.current, ← hu.before]
    exact beq_iff_eq.2 hjoined.symm
  show (if (u.current.span.start.line == u.before.line) = true then p else q) u = p u
  rw [if_pos hline]

/-- A parser takes the tokens before the place where it stops. -/
theorem LocalAt.of_ok (hp : p.LocalAt w 0 fun _ => 0) (hw : w.Proper) (hok : p w = .ok (a, w'))
    (hadvance : w.advance m = .ok w') (hm : m ≤ w.ahead.length) : p.LocalAt w j fun _ => m := by
  refine ⟨fun hok' => ?_, fun he _ => by cases hok.symm.trans he⟩
  obtain ⟨k, -, hk, hadvance', hv⟩ := hp.advance hw hok'
  cases hok.symm.trans hok'
  exact ⟨k, (Window.advance_injective hk hm hadvance' hadvance).ge, hk, hv⟩

/-- What goes on behind a result goes on from there. -/
theorem Beyond.behind (hp : p.LocalAt n 0 fun _ => 0) (hn : n.Proper) (hok : p n = .ok (a, n'))
    (hadvance : n.advance m = .ok n') (hm : m ≤ k) (hk : k ≤ n.ahead.length)
    (h : (f a).Beyond (k - m) n') : (p >>= f).Beyond k n := by
  refine (hp.of_ok hn hok hadvance (hm.trans hk)).bind hn le_rfl fun a' n'' _ hok' => ?_
  cases hok.symm.trans hok'
  rw [Nat.sub_add_comm hm]
  exact h

/-- A result behind a result. -/
theorem bind_stops {b : β} (hm : m ≤ k) (hadvance : w.advance m = .ok w') (hp : p w = .ok (a, w'))
    (hadvance' : w'.advance (k - m) = .ok v) (hf : f a w' = .ok (b, v)) :
    w.advance k = .ok v ∧ (p >>= f) w = .ok (b, v) := by
  refine ⟨?_, bind_eq_ok_iff.2 ⟨a, w', hp, hf⟩⟩
  rw [← Nat.add_sub_of_le hm, Window.advance_add, hadvance]
  exact hadvance'

/-! ## Rules -/

theorem ForksAt.mono (h : p.ForksAt Q c k w v n) (hQ : ∀ a, Q a → Q' a) :
    p.ForksAt Q' c k w v n := fun b v' hv =>
  ⟨(h b v' hv).ok, fun he hg hspan => ((h b v' hv).fault he hg hspan).imp_right fun h' =>
    h'.imp_right fun h' => h'.imp_right fun ⟨a, n', ha, hn⟩ => ⟨a, n', hQ a ha, hn⟩⟩

theorem ForksAt.weaken (h : p.ForksAt (fun _ => False) c k w v n) : p.ForksAt Q c k w v n :=
  h.mono fun _ => False.elim

theorem ForksAt.of_refuses (h : ∀ b v', p v ≠ .ok (b, v')) : p.ForksAt Q c k w v n :=
  fun b v' hv => absurd hv (h b v')

theorem ForksAt.fail {fault : String → ParseFault} :
    (Parsing.fail fault : Parse α).ForksAt Q c k w v n := .of_refuses nofun

theorem ForksAt.of_missing {e : Located ParseFault} (h : p w = .error e)
    (hmissing : e.cause.missing? = some c.spelling) : p.ForksAt Q c k w v n := by
  intro b v' hv
  constructor
  · intro a w' hok
    cases h.symm.trans hok
  · intro e' he _ _
    cases h.symm.trans he
    exact .inl hmissing

/-- A parser that goes on beyond the fork in the first window does not stop there. -/
theorem ForksAt.of_beyond (hfork : Fork c k w v n) (h : p.Beyond k w) :
    p.ForksAt Q c k w v n := fun _ _ _ => by
  constructor
  · intro a w' hok hadvance
    obtain ⟨i, hi, hle, hadvance', -⟩ := LocalAt.advance h hfork.proper hok
    have hindex := Window.advance_injective hfork.length hle hadvance hadvance'
    omega
  · intro e he hg hspan
    obtain ⟨i, hi, hle, hspan', -⟩ := LocalAt.fault h he hg
    have hindex := hfork.spans i hle (hspan'.symm.trans hspan)
    omega

/-- Only what a parser does at the three windows counts, and at those like the third one. -/
theorem ForksAt.congr (hq : q.ForksAt Q c k w v n) (hfork : Fork c k w v n) (hw : p w = q w)
    (hv : p v = q v) (hn : ∀ u, n.Agree (k + 1) u → p u = q u) : p.ForksAt Q c k w v n := by
  have hbeyond : q.Beyond k n → p.Beyond k n := fun h => h.congr hfork.name.proper hn
  intro b v' hb
  rw [hv] at hb
  obtain ⟨hok, hfault⟩ := hq b v' hb
  constructor
  · intro a w' ha hadvance
    rw [hw] at ha
    rw [hv, hn n (.refl hfork.name.proper)]
    obtain ⟨hv', hn'⟩ := hok ha hadvance
    exact ⟨hv', hn'.imp_left hbeyond⟩
  · intro e he hg hspan
    rw [hw] at he
    rw [hn n (.refl hfork.name.proper)]
    exact (hfault he hg hspan).imp_right fun h => h.imp_right fun h => h.imp_left hbeyond

theorem ForksAt.pure (hfork : Fork c k w v n) : (pure a : Parse α).ForksAt Q c k w v n := by
  intro b v' hv
  constructor
  · intro a' w' hok hadvance
    cases hok
    have hk : k = 0 := Window.advance_injective hfork.length (Nat.zero_le _) hadvance rfl
    subst hk
    exact ⟨⟨v, rfl, rfl⟩, .inr ⟨n, rfl, rfl⟩⟩
  · intro e he
    cases he

/-- A parser that gives a result before the fork, or there, gives it in all windows; in the third
one it may go on beyond. -/
theorem Forked.lockstep (h : p.Forked Q c k w v n) (hfork : Fork c k w v n)
    (hp : p.LocalAt w 0 fun _ => 0) (hbeyond : ¬p.Beyond k w) (hok : p w = .ok (a, w')) :
    ∃ m v' n', m ≤ k ∧ w.advance m = .ok w' ∧ v.advance m = .ok v' ∧ n.advance m = .ok n' ∧
      Fork c (k - m) w' v' n' ∧ p v = .ok (a, v') ∧ (p.Beyond k n ∨ p n = .ok (a, n')) := by
  obtain ⟨m, -, hm, hadvance, hagree⟩ := hp.advance hfork.proper hok
  have hle : m ≤ k := by
    by_contra hlt
    exact hbeyond ((hp.of_ok hfork.proper hok hadvance hm).mono le_rfl fun _ => by omega)
  obtain ⟨v', n', hv', hn', hfork'⟩ := hfork.advance hle hadvance
  refine ⟨m, v', n', hle, hadvance, hv', hn', hfork', ?_⟩
  rcases Nat.lt_or_eq_of_le hle with hlt | rfl
  · rw [hagree v (hfork.closer.agree hlt), hagree n (hfork.name.agree hlt), hv', hn']
    exact ⟨rfl, .inr rfl⟩
  · obtain ⟨⟨v'', hv'', hpv⟩, hn⟩ := h.ok hok hadvance
    cases hv'.symm.trans hv''
    refine ⟨hpv, hn.imp_right ?_⟩
    rintro ⟨n'', hn'', hpn⟩
    cases hn'.symm.trans hn''
    exact hpn

/-- Where the first parser stops at the name, the second one has to take it, or to give a result
without it. -/
theorem ForksAt.bind (hfork : Fork c k w v n)
    (hlocal : ∀ {u}, u = w ∨ u = n → p.LocalAt u 0 fun _ => 0)
    (hf : ∀ {u a u'}, u = w ∨ u = n → u'.Proper → p u = .ok (a, u') →
      (f a).LocalAt u' 0 fun _ => 0)
    (hp : p.ForksAt Q c k w v n)
    (hQ : ∀ a n', Q a → n'.Proper → n'.current.symbol = .name →
      (f a).Beyond 0 n' ∨ ∃ b, R b ∧ f a n' = .ok (b, n'))
    (hthen : ∀ {a w' v' n' m}, p w = .ok (a, w') → w.advance m = .ok w' → m ≤ k →
      Fork c (k - m) w' v' n' → (f a).ForksAt R c (k - m) w' v' n') :
    (p >>= f).ForksAt R c k w v n := by
  by_cases hw : p.Beyond k w
  · exact .of_beyond hfork (hw.bind hfork.proper (hf (.inl rfl)))
  intro b v'' hv
  obtain ⟨a₀, v₀, hpv₀, hfv₀⟩ := bind_eq_ok_iff.1 hv
  have hforked := hp a₀ v₀ hpv₀
  have hproper := hfork.name.proper
  have hlength := (hfork.name.length (by decide)).le
  have hbind : p.Beyond k n → (p >>= f).Beyond k n := fun h => h.bind hproper (hf (.inr rfl))
  -- The first parser stops at the fork at the latest, and the second one forks from there.
  have hstops : ∀ {a : α} {w' : Window}, p w = .ok (a, w') → ∃ m v' n', m ≤ k ∧
      w.advance m = .ok w' ∧ v.advance m = .ok v' ∧ n.advance m = .ok n' ∧ p v = .ok (a, v') ∧
      (p.Beyond k n ∨ p n = .ok (a, n')) ∧ (f a).Forked R c (k - m) w' v' n' := by
    intro a w' hpw
    obtain ⟨m, v', n', hm, hw', hv', hn', hfork', hpv, hpn⟩ :=
      hforked.lockstep hfork (hlocal (.inl rfl)) hw hpw
    obtain ⟨rfl, rfl⟩ := Prod.mk.inj (Except.ok.inj (hpv₀.symm.trans hpv))
    exact ⟨m, v₀, n', hm, hw', hv', hn', hpv, hpn, hthen hpw hw' hm hfork' _ _ hfv₀⟩
  constructor
  · intro b' w'' hok hadvance
    obtain ⟨a, w', hpw, hfw⟩ := bind_eq_ok_iff.1 hok
    obtain ⟨m, v', n', hm, hw', hv', hn', hpv, hpn, hrest⟩ := hstops hpw
    rw [← Nat.add_sub_of_le hm, Window.advance_add, hw'] at hadvance
    obtain ⟨⟨v₁, hv₁, hfv⟩, hfn⟩ := hrest.ok hfw hadvance
    refine ⟨⟨v₁, bind_stops hm hv' hpv hv₁ hfv⟩, ?_⟩
    rcases hpn with hbeyond | hpn
    · exact .inl (hbind hbeyond)
    · refine hfn.imp (.behind (hlocal (.inr rfl)) hproper hpn hn' hm hlength) ?_
      rintro ⟨n'', hn'', hfn⟩
      exact ⟨n'', bind_stops hm hn' hpn hn'' hfn⟩
  · intro e he hg hspan
    rcases bind_eq_error_iff.1 he with hpw | ⟨a, w', hpw, hfw⟩
    · refine (hforked.fault hpw hg hspan).imp_right (And.imp_right ?_)
      rintro (hbeyond | ⟨a, n', ha, hn', hpn⟩)
      · exact .inl (hbind hbeyond)
      · have hname : n'.current.symbol = .name := by
          rw [← Window.token_zero, Window.token_of_advance hn']
          exact hfork.name.symbol
        rcases hQ a n' ha (Window.proper_of_advance hproper hn') hname with hbeyond | ⟨b, hb, hfn⟩
        · rw [← Nat.sub_self k] at hbeyond
          exact .inl (.behind (hlocal (.inr rfl)) hproper hpn hn' le_rfl hlength hbeyond)
        · exact .inr ⟨b, n', hb, hn', bind_eq_ok_iff.2 ⟨a, n', hpn, hfn⟩⟩
    · obtain ⟨m, v', n', hm, hw', hv', hn', hpv, hpn, hrest⟩ := hstops hpw
      have htoken : w'.token (k - m) = w.token k := by
        rw [Window.token_of_advance hw', Nat.add_sub_of_le hm]
      refine (hrest.fault hfw hg (by rw [htoken, hspan])).imp_right fun ⟨heof, hfn⟩ =>
        ⟨by rwa [htoken] at heof, ?_⟩
      rcases hpn with hbeyond | hpn
      · exact .inl (hbind hbeyond)
      · refine hfn.imp (.behind (hlocal (.inr rfl)) hproper hpn hn' hm hlength) ?_
        rintro ⟨b, n'', hb, hn'', hfn⟩
        exact ⟨b, n'', hb, bind_stops hm hn' hpn hn'' hfn⟩

theorem ForksAt.then (hfork : Fork c k w v n)
    (hlocal : ∀ {u}, u = w ∨ u = n → p.LocalAt u 0 fun _ => 0)
    (hp : p.ForksAt (fun _ => False) c k w v n) (hf : ∀ a, (f a).Forks c) :
    (p >>= f).ForksAt R c k w v n :=
  .bind hfork hlocal (fun _ hu _ => (hf _).toLocal _ hu) hp (fun _ _ => False.elim)
    fun _ _ _ hfork' => ((hf _).forksAt hfork').weaken

theorem ForksAt.symbol {f : Symbol → Parse α} (hfork : Fork c (k + 1) w v n)
    (h : (f w.current.symbol).ForksAt Q c (k + 1) w v n) :
    (Parsing.symbol >>= f).ForksAt Q c (k + 1) w v n := by
  refine h.congr hfork rfl ?_ fun u hu => ?_
  · rw [← hfork.closer.current]
    rfl
  · rw [← hfork.name.current, hu.current]
    rfl

theorem ForksAt.current {f : Token → Parse α} (hfork : Fork c (k + 1) w v n)
    (h : (f w.current).ForksAt Q c (k + 1) w v n) :
    (Parsing.current >>= f).ForksAt Q c (k + 1) w v n := by
  refine h.congr hfork rfl ?_ fun u hu => ?_
  · rw [← hfork.closer.current]
    rfl
  · rw [← hfork.name.current, hu.current]
    rfl

theorem ForksAt.followingSymbol {f : Symbol → Parse α} (hfork : Fork c (k + 2) w v n)
    (h : (f w.following.symbol).ForksAt Q c (k + 2) w v n) :
    (Parsing.followingSymbol >>= f).ForksAt Q c (k + 2) w v n := by
  refine h.congr hfork rfl ?_ fun u hu => ?_
  · rw [← hfork.closer.following]
    rfl
  · rw [← hfork.name.following, hu.following (Nat.succ_pos _)]
    rfl

theorem ForksAt.onSameLine {f : Bool → Parse α} (hfork : Fork c (k + 1) w v n)
    (h : ∀ b, (f b).ForksAt Q c (k + 1) w v n) :
    (Parsing.onSameLine >>= f).ForksAt Q c (k + 1) w v n := by
  refine (h (w.current.span.start.line == w.before.line)).congr hfork rfl ?_ fun u hu => ?_
  · rw [← hfork.closer.current, ← hfork.closer.before]
    rfl
  · rw [← hfork.name.current, ← hfork.name.before, hu.current, hu.before]
    rfl

theorem Forks.pure : (pure a : Parse α).Forks c := ⟨.pure, .pure⟩

theorem Forks.fail {fault : String → ParseFault} : (Parsing.fail fault : Parse α).Forks c :=
  ⟨.fail, fun _ => .fail⟩

theorem Forks.bind (hp : p.Forks c) (hf : ∀ a, (f a).Forks c) : (p >>= f).Forks c where
  toLocal := hp.toLocal.bind fun a => (hf a).toLocal
  forksAt hfork := .then hfork (fun hu => hp.toLocal _ (hfork.proper_of_eq hu))
    (hp.forksAt hfork) hf

theorem Forks.map (hp : p.Forks c) (g : α → β) : (g <$> p).Forks c := by
  rw [map_eq_pure_bind]
  exact hp.bind fun _ => .pure

end Parse

end LuaSource
