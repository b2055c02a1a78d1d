-- SUMMARY: How single tokens, items and repetitions run at a fork.
import LuaSource.Proofs.Closing.Forks

/-!
# Rules for forks

A parser that has to begin with a token of its own gives no result in the second window, if it comes
to the fork. So what is of interest are the places where something may be missing: there the current
token tells whether it comes, and a name says that it does.
-/

namespace LuaSource.Parse

open Parsing

variable {α β : Type} {p q : Parse α} {f : α → Parse β} {c s : Symbol} {k : Nat}
  {w v n : Window} {a : α} {Q : α → Prop}

/-! ## Single tokens -/

/-- Taking the current token, whatever comes then. -/
theorem ForksAt.take {f : Token → Parse α} (hfork : Fork c k w v n) (hs : w.current.symbol ≠ .eof)
    (hf : ∀ t, (f t).Forks c) : (consume >>= f).ForksAt Q c k w v n := by
  cases k with
  | zero => exact .of_beyond hfork (.take hfork.proper hs le_rfl fun t => (hf t).toLocal)
  | succ k =>
    refine .then hfork (fun hu => ?_) (fun b v' hb => ?_) hf
    · exact (consume_localAt (m := 0) (hfork.proper_of_eq hu) (hfork.current_of_eq hu ▸ hs)).zero
    constructor
    · intro t w' hw hadvance
      have hone : w.advance 1 = .ok w' := by
        have hconsume : w.consume = .ok (t, w') := hw
        rw [Window.advance, hconsume]
        rfl
      have hle := hfork.length
      have hk := Window.advance_injective (by omega) hle hone hadvance
      rw [← hk]
      obtain ⟨v', hv, -⟩ := hfork.closer.consume hw
      obtain ⟨n', hn, -⟩ := hfork.name.consume hw
      refine ⟨⟨v', ?_, hv⟩, .inr ⟨n', ?_, hn⟩⟩
      · rw [Window.advance, hv]
        rfl
      · rw [Window.advance, hn]
        rfl
    · intro e he hg
      rw [Window.consume_error he] at hg
      cases hg

/-- A token that may be there. -/
theorem accept_forks (hs : s ∉ Symbol.closers) (hname : s ≠ .name) (heof : s ≠ .eof) :
    (accept s : Parse _).Forks c := by
  refine ⟨accept_local heof, @fun k w v n hfork => ?_⟩
  cases k with
  | zero =>
    by_cases hw : w.current.symbol = s
    · refine .of_beyond hfork (.symbol hfork.proper ?_)
      rw [if_pos hw]
      exact .take hfork.proper (hw ▸ heof) le_rfl fun _ => .pure
    · have hv : v.current.symbol ≠ s := by
        rw [hfork.closer.symbol_current]
        rintro rfl
        exact hs hfork.mem
      have hn : ∀ u, n.Agree (0 + 1) u → u.current.symbol ≠ s := fun u hu => by
        rw [← hu.current, hfork.name.symbol_current]
        exact hname.symm
      exact (ForksAt.pure hfork).congr hfork (accept_of_ne hw) (accept_of_ne hv) fun u hu =>
        accept_of_ne (hn u hu)
  | succ k =>
    refine .symbol hfork ?_
    split
    · next hw => exact .take hfork (hw ▸ heof) fun _ => .pure
    · exact .pure hfork

theorem expect_beyond (hw : w.Proper) (hs : w.current.symbol = s) (heof : s ≠ .eof) :
    (expect s : Parse _).Beyond 0 w := by
  refine LocalAt.symbol hw ?_
  rw [if_pos hs]
  exact consume_localAt hw (hs ▸ heof)

/-- A token that has to be there is the closer, or the closer cannot be there. -/
theorem expect_forks (heof : s ≠ .eof) : (expect s : Parse _).Forks c := by
  refine ⟨expect_local heof, @fun k w v n hfork => ?_⟩
  cases k with
  | zero =>
    by_cases hw : w.current.symbol = s
    · exact .of_beyond hfork (expect_beyond hfork.proper hw heof)
    · by_cases hc : c = s
      · exact .of_missing (expect_of_ne hw) (by rw [hc]; rfl)
      · refine .of_refuses fun b v' hv => ?_
        rw [expect_of_ne (by rw [hfork.closer.symbol_current]; exact hc)] at hv
        cases hv
  | succ k =>
    refine .symbol hfork ?_
    split
    · next hw =>
      rw [← bind_pure consume]
      exact .take hfork (hw ▸ heof) fun _ => .pure
    · exact .fail

theorem missing_closingFault (w : Window) (closer opener : Symbol) (line : Nat) :
    (w.closingFault closer opener line).cause.missing? = some closer.spelling := by
  rw [Window.closingFault]
  split <;> rfl

theorem expectClosing_forks {opener : Symbol} {line : Nat} (heof : s ≠ .eof) :
    (expectClosing s opener line : Parse _).Forks c := by
  refine ⟨expectClosing_local heof, @fun k w v n hfork => ?_⟩
  cases k with
  | zero =>
    by_cases hw : w.current.symbol = s
    · refine .of_beyond hfork (.current hfork.proper ?_)
      rw [if_pos hw]
      exact consume_localAt hfork.proper (hw ▸ heof)
    · have hfault := expectClosing_apply s opener line w
      rw [if_neg hw] at hfault
      by_cases hc : c = s
      · exact .of_missing hfault (hc ▸ missing_closingFault ..)
      · refine .of_refuses fun b v' hv => ?_
        rw [expectClosing_apply, if_neg (by rw [hfork.closer.symbol_current]; exact hc)] at hv
        cases hv
  | succ k =>
    refine .current hfork ?_
    split
    · next hw =>
      rw [← bind_pure consume]
      exact .take hfork (hw ▸ heof) fun _ => .pure
    · split
      · exact .fail
      · exact .fail

theorem expectName_forks : (expectName : Parse _).Forks c :=
  (expect_forks (by decide)).bind fun _ => .pure

/-! ## Items -/

/-- At `w` the parser takes a token at least for a result. It gives none at a closer, and takes a
name in any case. -/
structure ItemAt (p : Parse α) (w : Window) : Prop where
  refuses : w.current.symbol ∈ Symbol.closers → ∀ a w', p w ≠ .ok (a, w')
  takes : p.LocalAt w 0 fun _ => 1
  name : w.current.symbol = .name → p.LocalAt w 1 fun _ => 1

def Item (p : Parse α) : Prop := ∀ w, w.Proper → p.ItemAt w

theorem ItemAt.of_takes (hs : w.current.symbol ∉ Symbol.closers) (h : p.LocalAt w 1 fun _ => 1) :
    p.ItemAt w := ⟨fun hc => absurd hc hs, h.mono (Nat.zero_le 1) fun _ => le_rfl, fun _ => h⟩

theorem ItemAt.take {f : Token → Parse α} (hw : w.Proper) (hs : w.current.symbol = s)
    (hclosers : s ∉ Symbol.closers) (heof : s ≠ .eof) (hf : ∀ t, (f t).Local) :
    (consume >>= f).ItemAt w := .of_takes (hs ▸ hclosers) (.take hw (hs ▸ heof) le_rfl hf)

theorem ItemAt.fail {fault : String → ParseFault} (hs : w.current.symbol ≠ .name) :
    (Parsing.fail fault : Parse α).ItemAt w := ⟨fun _ => nofun, .fail, fun h => absurd h hs⟩

theorem ItemAt.symbol {f : Symbol → Parse α} (hw : w.Proper)
    (h : (f w.current.symbol).ItemAt w) : (Parsing.symbol >>= f).ItemAt w :=
  ⟨h.refuses, .symbol hw h.takes, fun hs => .symbol hw (h.name hs)⟩

theorem ItemAt.current {f : Token → Parse α} (hw : w.Proper)
    (h : (f w.current).ItemAt w) : (Parsing.current >>= f).ItemAt w :=
  ⟨h.refuses, .current hw h.takes, fun hs => .current hw (h.name hs)⟩

theorem ItemAt.bind (hp : p.ItemAt w) (hw : w.Proper) (hf : ∀ a, (f a).Local) :
    (p >>= f).ItemAt w where
  refuses hs b w'' hb := by
    obtain ⟨a, w', ha, -⟩ := bind_eq_ok_iff.1 hb
    exact hp.refuses hs a w' ha
  takes := hp.takes.thenLocal hw (Nat.zero_le 1) hf
  name hs := (hp.name hs).thenLocal hw le_rfl hf

theorem Item.bind (hp : p.Item) (hf : ∀ a, (f a).Local) : (p >>= f).Item :=
  fun w hw => (hp w hw).bind hw hf

theorem ItemAt.congr (h : q.ItemAt w) (hw : w.Proper) (hpq : ∀ u, w.Agree 0 u → p u = q u) :
    p.ItemAt w where
  refuses hs := by
    rw [hpq w (.refl hw)]
    exact h.refuses hs
  takes := h.takes.congr hw hpq
  name hs := (h.name hs).congr hw hpq

theorem ItemAt.accept {f : Option Token → Parse α} (hw : w.Proper) (hclosers : s ∉ Symbol.closers)
    (heof : s ≠ .eof) (hsome : ∀ t, (f (some t)).Local) (hnone : (f none).ItemAt w) :
    (accept s >>= f).ItemAt w := by
  by_cases hs : w.current.symbol = s
  · rw [Parse.accept, bind_assoc]
    refine .symbol hw ?_
    rw [if_pos hs, bind_assoc]
    refine .take hw hs hclosers heof fun t => ?_
    rw [pure_bind]
    exact hsome t
  · refine hnone.congr hw fun u hu => ?_
    rw [bind_apply, accept_of_ne (hu.current ▸ hs)]
    rfl

theorem expectName_item : (expectName : Parse _).Item := by
  intro w hw
  refine ⟨fun hs a w' ha => ?_, expectName_localAt hw, expectName_localAt_name hw⟩
  obtain ⟨t, w'', ht, -⟩ := bind_eq_ok_iff.1 ha
  rw [expect_of_ne] at ht
  · cases ht
  · intro hname
    rw [hname] at hs
    exact absurd hs (by decide)

/-- A parser that cannot begin with a closer is of interest beyond the first token only. -/
theorem Forks.of_refuses (hp : p.Local)
    (hrefuses : ∀ w, w.current.symbol ∈ Symbol.closers → ∀ a w', p w ≠ .ok (a, w'))
    (h : ∀ {k w v n}, Fork c (k + 1) w v n → p.ForksAt (fun _ => False) c (k + 1) w v n) :
    p.Forks c := by
  refine ⟨hp, @fun k w v n hfork => ?_⟩
  cases k with
  | zero => exact .of_refuses (hrefuses v (by rw [hfork.closer.symbol_current]; exact hfork.mem))
  | succ k => exact h hfork

theorem Forks.of_item (hp : p.Item)
    (h : ∀ {k w v n}, Fork c (k + 1) w v n → p.ForksAt (fun _ => False) c (k + 1) w v n) :
    p.Forks c := by
  refine ⟨fun w hw => (hp w hw).takes.zero, @fun k w v n hfork => ?_⟩
  cases k with
  | zero =>
    refine .of_refuses ((hp v hfork.closer.proper).refuses ?_)
    rw [hfork.closer.symbol_current]
    exact hfork.mem
  | succ k => exact h hfork

/-- Whether an item comes or not is told by the current token. Where the closer is there in place of
an item, the item could be there as well. -/
theorem ForksAt.unless_here {P : Symbol → Prop} [DecidablePred P] (hfork : Fork c 0 w v n)
    (hq : q.Item) (hp : ∀ u, p u = if P u.current.symbol then .ok (a, u) else q u)
    (hname : ¬P .name) (heof : P c → c ∈ Symbol.blockClosers → P .eof) :
    p.ForksAt Q c 0 w v n := by
  intro b v' hv
  have hc : P c := by
    by_contra hc
    rw [hp, hfork.closer.symbol_current, if_neg hc] at hv
    refine (hq v hfork.closer.proper).refuses ?_ b v' hv
    rw [hfork.closer.symbol_current]
    exact hfork.mem
  have hbeyond : p.Beyond 0 n := by
    refine Beyond.congr ((hq n hfork.name.proper).name hfork.name.symbol_current)
      hfork.name.proper fun u hu => ?_
    rw [hp, ← hu.current, hfork.name.symbol_current, if_neg hname]
  constructor
  · intro a' w' hok hadvance
    cases hadvance
    rw [hp] at hok
    split at hok
    · cases hok
      refine ⟨⟨v, rfl, ?_⟩, .inl hbeyond⟩
      rw [hp, hfork.closer.symbol_current, if_pos hc]
    · have hlength := (hq w hfork.proper).takes.length hfork.proper hok
      omega
  · intro e he _ _
    rw [hp] at he
    split at he
    · cases he
    · next hw =>
      refine .inr ⟨fun hsymbol hblock => hw ?_, .inl hbeyond⟩
      rw [← Window.token_zero, hsymbol]
      exact heof hc hblock

theorem ForksAt.unless {P : Symbol → Prop} [DecidablePred P] (hfork : Fork c k w v n)
    (hq : q.Item) (hp : ∀ u, p u = if P u.current.symbol then .ok (a, u) else q u)
    (hname : ¬P .name) (heof : P c → c ∈ Symbol.blockClosers → P .eof)
    (h : ∀ l, k = l + 1 → q.ForksAt Q c k w v n) : p.ForksAt Q c k w v n := by
  cases k with
  | zero => exact .unless_here hfork hq hp hname heof
  | succ k =>
    have hv := congrArg (·.symbol) hfork.closer.current
    have hn : ∀ u, n.Agree (k + 1 + 1) u → u.current.symbol = w.current.symbol := fun u hu => by
      rw [← hu.current, hfork.name.current]
    by_cases hw : P w.current.symbol
    · have hpure : (Pure.pure a : Parse α).ForksAt Q c (k + 1) w v n := .pure hfork
      have hstops : ∀ {u}, u.current.symbol = w.current.symbol → p u = .ok (a, u) := fun hu => by
        rw [hp, hu, if_pos hw]
      exact hpure.congr hfork (hstops rfl) (hstops hv) fun u hu => hstops (hn u hu)
    · have hgoes : ∀ {u}, u.current.symbol = w.current.symbol → p u = q u := fun hu => by
        rw [hp, hu, if_neg hw]
      exact (h k rfl).congr hfork (hgoes rfl) (hgoes hv) fun u hu => hgoes (hn u hu)

/-- An item, or a result without it. -/
theorem Forks.unless {P : Symbol → Prop} [DecidablePred P] (hp : p.Item) (hforks : p.Forks c)
    (hname : ¬P .name) (heof : P c → c ∈ Symbol.blockClosers → P .eof) :
    (Parsing.symbol >>= fun s => if P s then Pure.pure a else p).Forks c := by
  refine ⟨.symbol fun s => ?_, fun hfork => ForksAt.unless (P := P) (a := a) hfork hp
    (fun u => ?_) hname heof fun l _ => hforks.forksAt hfork⟩
  · split
    · exact .pure
    · exact hforks.toLocal
  · show (if P u.current.symbol then Pure.pure a else p) u = _
    split <;> rfl

/-- What comes behind an item that may be missing. -/
theorem Forks.unless_bind {P : Symbol → Prop} [DecidablePred P] (hp : p.Item)
    (hforks : p.Forks c) (hname : ¬P .name) (heof : P c → c ∈ Symbol.blockClosers → P .eof)
    (hf : ∀ a, (f a).Forks c) :
    (Parsing.symbol >>= fun s => if P s then Pure.pure a >>= f else p >>= f).Forks c := by
  have hbind : (Parsing.symbol >>= fun s => if P s then Pure.pure a >>= f else p >>= f) =
      (Parsing.symbol >>= fun s => if P s then Pure.pure a else p) >>= f := by
    rw [bind_assoc]
    refine bind_congr fun s => ?_
    split <;> rfl
  rw [hbind]
  exact (Forks.unless hp hforks hname heof).bind hf

/-! ## Repetition -/

section Loop

variable {step : α → Parse (α ⊕ β)}

theorem StepLocal.toLocal (hstep : StepLocal step) (a : α) : (step a).Local :=
  fun w hw => (hstep a w hw).mono le_rfl fun _ => Nat.zero_le _

/-- A step that stops at the name goes on, and so does the repetition. -/
theorem loop_forks {R : α ⊕ β → Prop} (hstep : StepLocal step)
    (hR : ∀ r n, R r → n.Proper → n.current.symbol = .name →
      (r.elim (loop step) Pure.pure : Parse β).Beyond 0 n)
    (h : ∀ a {k w v n}, Fork c k w v n → (step a).ForksAt R c k w v n) (a : α) :
    (loop step a).Forks c := by
  refine ⟨loop_local hstep a, @fun k w v n hfork => ?_⟩
  induction hlength : w.ahead.length using Nat.strong_induction_on generalizing a k w v n with
  | _ length ih =>
    have hrest : ∀ r : α ⊕ β, (r.elim (loop step) Pure.pure : Parse β).Local := by
      rintro (a | b)
      · exact loop_local hstep a
      · exact .pure
    have hbind : (step a >>= fun r => r.elim (loop step) Pure.pure).ForksAt (fun _ => False) c k
        w v n := by
      refine .bind hfork (fun hu => hstep.toLocal a _ (hfork.proper_of_eq hu))
        (fun _ hu _ => hrest _ _ hu) (h a hfork) (fun r n' hr hn hs => .inl (hR r n' hr hn hs))
        fun {r w' v' n' m} hw _ _ hfork' => ?_
      have hlt := (hstep a w hfork.proper).length hfork.proper hw
      cases r with
      | inl a' =>
        rw [Sum.elim_inl] at hlt
        exact ih w'.ahead.length (by omega) a' _ _ _ _ hfork' rfl
      | inr b => exact .pure hfork'
    exact hbind.congr hfork (loop_eq hstep hfork.proper) (loop_eq hstep hfork.closer.proper)
      fun u hu => loop_eq hstep hu.proper

theorem loop_forks_of_forks (hstep : StepLocal step) (h : ∀ a, (step a).Forks c) (a : α) :
    (loop step a).Forks c :=
  loop_forks hstep (fun _ _ => False.elim) (fun a => (h a).forksAt) a

theorem loop_item (hstep : StepLocal step) {a : α} (h : (step a).Item) : (loop step a).Item := by
  intro w hw
  have hrest : ∀ r : α ⊕ β, (r.elim (loop step) Pure.pure : Parse β).Local := by
    rintro (a | b)
    · exact loop_local hstep a
    · exact .pure
  obtain ⟨hrefuses, htakes, hname⟩ := (h w hw).bind hw hrest
  refine ⟨fun hs b w' hb => ?_, ?_, fun hs => ?_⟩
  · rw [loop_eq hstep hw] at hb
    exact hrefuses hs b w' hb
  · exact htakes.congr hw fun u hu => loop_eq hstep hu.proper
  · exact (hname hs).congr hw fun u hu => loop_eq hstep hu.proper

end Loop

theorem separated_forks {item : Token → Parse α} (hs : s ∉ Symbol.closers) (hname : s ≠ .name)
    (heof : s ≠ .eof) (h : ∀ t, (item t).Forks c) (first : α) :
    (separated s item first).Forks c := by
  refine loop_forks_of_forks (separatedStep_local heof fun t => (h t).toLocal) (fun as => ?_) _
  refine (accept_forks hs hname heof).bind fun t => ?_
  cases t with
  | some t => exact (h t).bind fun _ => .pure
  | none => exact .pure

theorem commaList_forks (h : p.Forks c) : (commaList p).Forks c :=
  h.bind fun first => separated_forks (by decide) (by decide) (by decide) (fun _ => h) first

end LuaSource.Parse
