-- SUMMARY: What parsers do to the openers of the tokens that they take, and the rules to find it out.
import LuaSource.Proofs.Closing.Openers
import LuaSource.Proofs.Grammar.InStep
import LuaSource.Proofs.Grammar.Locality
import LuaSource.Proofs.Grammar.Rules

/-!
# Openers in a parse

The tokens that a parser has taken leave some openers unclosed. A parser is specified by what it
finds of them and what it leaves, and by its faults: one that tells of an opener tells of the
innermost one. Behind a `return` without values the block has to end, so that there a fault is about
a closer in any case. For this the symbol of the token before is kept as well.
-/

namespace LuaSource

/-- What is kept of the tokens that are read. -/
structure Reading where
  openers : List Opener
  /-- The symbol of the last token. -/
  last : Symbol

namespace Reading

def read (r : Reading) (t : Token) : Reading := ⟨Opener.read r.openers t, t.symbol⟩

def after (r : Reading) (ts : List Token) : Reading := ts.foldl read r

theorem after_append (r : Reading) (ts us : List Token) :
    r.after (ts ++ us) = (r.after ts).after us := List.foldl_append

theorem openers_after (r : Reading) (ts : List Token) :
    (r.after ts).openers = ts.foldl Opener.read r.openers := by
  induction ts generalizing r with
  | nil => rfl
  | cons t ts ih => exact ih (r.read t)

theorem last_after (r : Reading) (ts : List Token) :
    (r.after ts).last = (ts.getLast?.map (·.symbol)).getD r.last := by
  induction ts generalizing r with
  | nil => rfl
  | cons t ts ih =>
    rw [List.getLast?_cons]
    refine (ih (r.read t)).trans ?_
    cases ts.getLast? <;> rfl

/-- What a fault at a token has to do with the tokens before it. -/
structure Blames (r : Reading) (t : Token) (f : ParseFault) : Prop where
  line : f.line?.isSome = true → ∃ o os, r.openers = o :: os ∧ f = o.fault t
  closer : r.last = .kwReturn → t.symbol ∈ Symbol.blockEnds →
    ∀ o os, r.openers = o :: os → f = o.fault t

/-- Unless this is behind a `return`, no end of a block is to be seen. -/
def Calm (w : Window) (r : Reading) : Prop :=
  r.last = .kwReturn → w.current.symbol ∉ Symbol.blockEnds

/-- These openers are not closed, and a block that has ended is not left open. -/
def At (os : List Opener) (w : Window) (r : Reading) : Prop := r.openers = os ∧ r.Calm w

/-- These openers are not closed. -/
def Behind (os : List Opener) (_ : Window) (r : Reading) : Prop := r.openers = os

variable {w : Window} {r : Reading} {os : List Opener} {t : Token} {f : String → ParseFault}

theorem At.behind (h : At os w r) : Behind os w r := h.1

theorem Calm.blames (h : r.Calm w) (hf : ParseFault.Lineless f) {near : String} :
    r.Blames w.current (f near) where
  line hline := by
    rw [hf] at hline
    cases hline
  closer hlast hend := absurd hend (h hlast)

theorem Behind.blames {o : Opener} (h : Behind (o :: os) w r) : r.Blames t (o.fault t) where
  line _ := ⟨o, os, h, rfl⟩
  closer _ _ o' os' ho' := by
    obtain ⟨rfl, -⟩ := List.cons.inj (h.symm.trans ho')
    rfl

theorem at_read (ht : t.symbol ≠ .kwReturn) (hos : Opener.read r.openers t = os) :
    At os w (r.read t) := ⟨hos, fun hlast => absurd hlast ht⟩

end Reading

namespace Parse

open Parsing

open Reading

variable {α β : Type} {p q : Parse α} {f : α → Parse β} {w : Window} {r : Reading}
  {pre : Window → Reading → Prop} {post post' mid : α → Window → Reading → Prop}
  {post'' : β → Window → Reading → Prop}

/-- What a parser does at `w` behind the tokens of which `r` is kept. -/
structure TracksAt (p : Parse α) (w : Window) (r : Reading)
    (post : α → Window → Reading → Prop) : Prop where
  ok : ∀ {a w'}, p w = .ok (a, w') → ∃ k, k ≤ w.ahead.length ∧ w.advance k = .ok w' ∧
    post a w' (r.after (w.ahead.take k))
  fault : ∀ {e}, p w = .error e → e.cause.isGrammatical = true → ∃ k w', k ≤ w.ahead.length ∧
    w.advance k = .ok w' ∧ e.span = w'.current.span ∧
    (r.after (w.ahead.take k)).Blames w'.current e.cause

/-- What a parser does wherever `pre` is known. -/
def Tracks (p : Parse α) (pre : Window → Reading → Prop)
    (post : α → Window → Reading → Prop) : Prop :=
  ∀ w r, w.Proper → pre w r → p.TracksAt w r post

/-! ## Rules -/

theorem TracksAt.mono (h : p.TracksAt w r post) (hpost : ∀ a w r, post a w r → post' a w r) :
    p.TracksAt w r post' where
  ok hok := by
    obtain ⟨k, hk, hadvance, h⟩ := h.ok hok
    exact ⟨k, hk, hadvance, hpost _ _ _ h⟩
  fault := h.fault

theorem TracksAt.pure {a : α} (h : post a w r) : (pure a : Parse α).TracksAt w r post where
  ok hok := by
    cases hok
    exact ⟨0, Nat.zero_le _, rfl, h⟩
  fault he := by cases he

theorem TracksAt.here {e : Located ParseFault} (h : p w = .error e)
    (hspan : e.span = w.current.span) (hblames : r.Blames w.current e.cause) :
    p.TracksAt w r post where
  ok hok := by
    rw [h] at hok
    cases hok
  fault he _ := by
    rw [h] at he
    cases he
    exact ⟨0, w, Nat.zero_le _, rfl, hspan, hblames⟩

theorem TracksAt.fail {fault : String → ParseFault} (hf : ParseFault.Lineless fault)
    (hr : r.Calm w) : (Parsing.fail fault : Parse α).TracksAt w r post :=
  .here rfl rfl (hr.blames hf)

/-- A fault that is not grammatical. -/
theorem TracksAt.ungrammatical {fault : String → ParseFault}
    (h : ∀ near, (fault near).isGrammatical = false) :
    (Parsing.fail fault : Parse α).TracksAt w r post where
  ok hok := by cases hok
  fault he hg := by
    cases he
    rw [h] at hg
    cases hg

theorem TracksAt.bind (hp : p.TracksAt w r mid) (hw : w.Proper)
    (hf : ∀ a w' r', w'.Proper → p w = .ok (a, w') → mid a w' r' →
      (f a).TracksAt w' r' post'') :
    (p >>= f).TracksAt w r post'' := by
  have hthen : ∀ {k l : Nat} {w' : Window}, k ≤ w.ahead.length → w.advance k = .ok w' →
      l ≤ w'.ahead.length → k + l ≤ w.ahead.length ∧
        (r.after (w.ahead.take k)).after (w'.ahead.take l) = r.after (w.ahead.take (k + l)) := by
    intro k l w' hk hadvance hl
    rw [Window.ahead_of_advance hadvance, List.length_drop] at hl
    rw [Window.ahead_of_advance hadvance, ← after_append, ← List.take_add]
    exact ⟨by omega, rfl⟩
  constructor
  · intro b w'' hok
    obtain ⟨a, w', h₁, h₂⟩ := bind_eq_ok_iff.1 hok
    obtain ⟨k, hk, hadvance, hmid⟩ := hp.ok h₁
    obtain ⟨l, hl, hadvance', hpost⟩ :=
      (hf a w' _ (Window.proper_of_advance hw hadvance) h₁ hmid).ok h₂
    obtain ⟨hlength, hafter⟩ := hthen hk hadvance hl
    rw [hafter] at hpost
    exact ⟨k + l, hlength, by rw [Window.advance_add, hadvance]; exact hadvance', hpost⟩
  · intro e he hg
    rcases bind_eq_error_iff.1 he with h₁ | ⟨a, w', h₁, h₂⟩
    · exact hp.fault h₁ hg
    · obtain ⟨k, hk, hadvance, hmid⟩ := hp.ok h₁
      obtain ⟨l, w'', hl, hadvance', hspan, hblames⟩ :=
        (hf a w' _ (Window.proper_of_advance hw hadvance) h₁ hmid).fault h₂ hg
      obtain ⟨hlength, hafter⟩ := hthen hk hadvance hl
      rw [hafter] at hblames
      exact ⟨k + l, w'', hlength, by rw [Window.advance_add, hadvance]; exact hadvance', hspan,
        hblames⟩

theorem TracksAt.current {f : Token → Parse α} (h : (f w.current).TracksAt w r post) :
    (Parsing.current >>= f).TracksAt w r post := ⟨h.ok, h.fault⟩

theorem TracksAt.symbol {f : Symbol → Parse α} (h : (f w.current.symbol).TracksAt w r post) :
    (Parsing.symbol >>= f).TracksAt w r post := ⟨h.ok, h.fault⟩

theorem TracksAt.followingSymbol {f : Symbol → Parse α}
    (h : (f w.following.symbol).TracksAt w r post) :
    (Parsing.followingSymbol >>= f).TracksAt w r post := ⟨h.ok, h.fault⟩

theorem TracksAt.onSameLine {f : Bool → Parse α} (h : ∀ b, (f b).TracksAt w r post) :
    (Parsing.onSameLine >>= f).TracksAt w r post := ⟨(h _).ok, (h _).fault⟩

theorem Tracks.mono {pre' : Window → Reading → Prop} (h : p.Tracks pre post)
    (hpre : ∀ w r, pre' w r → pre w r) (hpost : ∀ a w r, post a w r → post' a w r) :
    p.Tracks pre' post' := fun w r hw hr => (h w r hw (hpre w r hr)).mono hpost

theorem Tracks.pure {a : α} (h : ∀ w r, pre w r → post a w r) :
    (pure a : Parse α).Tracks pre post := fun w r _ hr => .pure (h w r hr)

theorem Tracks.fail {os : List Opener} {fault : String → ParseFault}
    (hf : ParseFault.Lineless fault) : (Parsing.fail fault : Parse α).Tracks (At os) post :=
  fun _ _ _ hr => .fail hf hr.2

theorem Tracks.bind (hp : p.Tracks pre mid) (hf : ∀ a, (f a).Tracks (mid a) post'') :
    (p >>= f).Tracks pre post'' :=
  fun w r hw hr => (hp w r hw hr).bind hw fun a w' r' hw' _ hmid => hf a w' r' hw' hmid

theorem Tracks.map (hp : p.Tracks pre mid) {g : α → β}
    (hg : ∀ a w r, mid a w r → post'' (g a) w r) : (g <$> p).Tracks pre post'' := by
  rw [map_eq_pure_bind]
  exact hp.bind fun a => .pure (hg a)

theorem Tracks.symbol {f : Symbol → Parse α} (h : ∀ s, (f s).Tracks pre post) :
    (Parsing.symbol >>= f).Tracks pre post := fun w r hw hr => .symbol (h _ w r hw hr)

theorem Tracks.current {f : Token → Parse α} (h : ∀ t, (f t).Tracks pre post) :
    (Parsing.current >>= f).Tracks pre post := fun w r hw hr => .current (h _ w r hw hr)

theorem Tracks.ite {c : Prop} [Decidable c] (hp : p.Tracks pre post) (hq : q.Tracks pre post) :
    (if c then p else q).Tracks pre post := by
  split
  · exact hp
  · exact hq

/-- What is made of a result takes no tokens. -/
theorem TracksAt.give {g : α → β} (hp : p.TracksAt w r fun _ => pre) (hw : w.Proper) :
    (p >>= fun a => Pure.pure (g a)).TracksAt w r fun _ => pre :=
  hp.bind hw fun _ _ _ _ _ h => .pure h

theorem Tracks.give {pre' : Window → Reading → Prop} {g : α → β}
    (hp : p.Tracks pre fun _ => pre') :
    (p >>= fun a => Pure.pure (g a)).Tracks pre fun _ => pre' :=
  fun w r hw hr => (hp w r hw hr).give hw

/-- Two ways of going on behind which the same comes. -/
theorem Tracks.ite_bind {c : Prop} [Decidable c] (hp : p.Tracks pre mid) (hq : q.Tracks pre mid)
    (hf : ∀ a, (f a).Tracks (mid a) post'') :
    (if c then p >>= f else q >>= f).Tracks pre post'' :=
  .ite (hp.bind hf) (hq.bind hf)

/-! ## Single tokens -/

/-- Taking the current token, whatever comes then. -/
theorem TracksAt.take {f : Token → Parse α} (hw : w.Proper) (hs : w.current.symbol ≠ .eof)
    (hf : ∀ w', w'.Proper → (f w.current).TracksAt w' (r.read w.current) post) :
    (consume >>= f).TracksAt w r post := by
  have hconsume : (consume : Parse _).TracksAt w r fun t _ r' =>
      t = w.current ∧ r' = r.read w.current := by
    constructor
    · intro t w' h
      have hahead := hw.ahead_eq hs
      obtain ⟨rfl, -⟩ := Window.consume_eq_ok h
      refine ⟨1, ?_, ?_, rfl, ?_⟩
      · rw [hahead]
        exact Nat.succ_le_succ (Nat.zero_le _)
      · have hw' : w.consume = .ok (w.current, w') := h
        rw [Window.advance, hw']
        rfl
      · rw [hahead]
        rfl
    · intro e h hg
      rw [Window.consume_error h] at hg
      cases hg
  refine hconsume.bind hw fun t w' r' hw' _ h => ?_
  obtain ⟨rfl, rfl⟩ := h
  exact hf w' hw'

variable {s : Symbol} {os : List Opener}

/-- Taking a token that opens something. -/
theorem TracksAt.open {f : Token → Parse α} (hw : w.Proper) (hs : w.current.symbol = s)
    {c : Symbol} (hc : s.closer? = some c) (hdo : s = .kwDo → Opener.OutsideHead os)
    (hr : Behind os w r)
    (hf : (f w.current).Tracks (At (⟨w.current, s.hasHead⟩ :: os)) post) :
    (consume >>= f).TracksAt w r post := by
  subst hs
  have hopen := Opener.read_opener hc hdo
  refine .take hw (fun heof => ?_) fun w' hw' => hf w' _ hw' (at_read ?_ (hr ▸ hopen))
  · rw [heof] at hc
    cases hc
  · intro hreturn
    rw [hreturn] at hc
    cases hc

/-- Taking a token that neither opens nor closes anything. -/
theorem TracksAt.pass {f : Token → Parse α} (hw : w.Proper) (hs : w.current.symbol = s)
    (hn : s.isNeutral = true) (hne : s ≠ .eof ∧ s ≠ .kwReturn) (hr : Behind os w r)
    (hf : ∀ t, (f t).Tracks (At os) post) : (consume >>= f).TracksAt w r post := by
  subst hs
  have hread : Opener.read r.openers w.current = os := (Opener.read_neutral hn).trans hr
  exact .take hw hne.1 fun w' hw' => hf _ w' _ hw' (at_read hne.2 hread)

theorem consume_tracksAt {post : Token → Window → Reading → Prop} (hw : w.Proper)
    (hs : w.current.symbol = s) (hne : s ≠ .eof)
    (h : ∀ w', post w.current w' (r.read w.current)) : (consume : Parse _).TracksAt w r post := by
  rw [← bind_pure consume]
  exact .take hw (hs ▸ hne) fun w' _ => .pure (h w')

/-- What comes behind a token that has to be there, by what is read of it. -/
theorem expect_tracks {post : Token → Window → Reading → Prop} (hne : s ≠ .eof)
    (h : ∀ (w : Window) (r : Reading) (t : Token), t.symbol = s → r.openers = os →
      post t w (r.read t)) :
    (expect s : Parse _).Tracks (At os) post := by
  intro w r hw hr
  by_cases hs : w.current.symbol = s
  · rw [expect]
    refine .symbol ?_
    rw [if_pos hs]
    exact consume_tracksAt hw hs hne fun w' => h w' r _ hs hr.1
  · rw [expect]
    refine .symbol ?_
    rw [if_neg hs]
    exact .fail (fun _ => rfl) hr.2

theorem expect_neutral (hn : s.isNeutral = true) (hne : s ≠ .eof ∧ s ≠ .kwReturn) :
    (expect s : Parse _).Tracks (At os) fun _ => At os :=
  expect_tracks hne.1 fun _ r t ht hos => by
    subst ht
    exact at_read hne.2 (hos ▸ Opener.read_neutral hn)

/-- What comes behind an opener that has to be there. -/
theorem Tracks.opener {f : Token → Parse α} {c : Symbol} (hc : s.closer? = some c)
    (hdo : s = .kwDo → Opener.OutsideHead os)
    (hf : ∀ t, t.symbol = s → (f t).Tracks (At (⟨t, s.hasHead⟩ :: os)) post) :
    (expect s >>= f).Tracks (At os) post := by
  have hexpect : (expect s : Parse _).Tracks (At os) fun t w r =>
      t.symbol = s ∧ At (⟨t, s.hasHead⟩ :: os) w r := by
    refine expect_tracks (fun heof => ?_) fun w r t ht hos => ?_
    · rw [heof] at hc
      cases hc
    · subst ht
      subst hos
      refine ⟨rfl, at_read (fun hreturn => ?_) (Opener.read_opener hc hdo)⟩
      rw [hreturn] at hc
      cases hc
  exact hexpect.bind fun t w r hw h => hf t h.1 w r hw h.2

/-- The `do` of a head. -/
theorem expect_do {t : Token} :
    (expect .kwDo : Parse _).Tracks (At (⟨t, true⟩ :: os)) fun _ => At (⟨t, false⟩ :: os) :=
  expect_tracks (by decide) fun _ r t ht hos =>
    at_read (by rw [ht]; decide) (hos ▸ Opener.read_head ht rfl)

theorem expect_closer {o : Opener} (hc : o.token.symbol.closer? = some s) :
    (expect s : Parse _).Tracks (At (o :: os)) fun _ => At os := by
  have hmem := Symbol.mem_closers_of_closer? hc
  refine expect_tracks (fun heof => ?_) fun w r t ht hos => ?_
  · rw [heof] at hmem
    exact absurd hmem (by decide)
  · subst ht
    refine at_read (fun hreturn => ?_) (hos ▸ Opener.read_closer hc)
    rw [hreturn] at hmem
    exact absurd hmem (by decide)

/-- What has to be closed tells of the innermost opener. -/
theorem expectClosing_tracks {t : Token} {opener : Symbol} {b : Bool} (ht : t.symbol = opener)
    (hc : opener.closer? = some s) :
    (expectClosing s opener t.span.start.line : Parse _).Tracks (Behind (⟨t, b⟩ :: os))
      fun _ => At os := by
  subst ht
  intro w r hw hr
  have hmem := Symbol.mem_closers_of_closer? hc
  rw [expectClosing]
  refine .current ?_
  by_cases hs : w.current.symbol = s
  · rw [if_pos hs]
    have hread : Opener.read r.openers w.current = os := by
      rw [hr]
      exact Opener.read_closer (hs ▸ hc)
    refine consume_tracksAt hw hs (fun heof => ?_) fun w' => at_read (fun hreturn => ?_) hread
    · rw [heof] at hmem
      exact absurd hmem (by decide)
    · rw [← hs, hreturn] at hmem
      exact absurd hmem (by decide)
  · rw [if_neg hs]
    have hblames : r.Blames w.current (Opener.fault ⟨t, b⟩ w.current) := Behind.blames hr
    rw [Opener.fault, hc] at hblames
    split
    · next hline => exact .here rfl rfl (by rwa [if_pos hline] at hblames)
    · next hline => exact .here rfl rfl (by rwa [if_neg hline] at hblames)

theorem expectClosing_at {t : Token} {opener : Symbol} {b : Bool} (ht : t.symbol = opener)
    (hc : opener.closer? = some s) :
    (expectClosing s opener t.span.start.line : Parse _).Tracks (At (⟨t, b⟩ :: os))
      fun _ => At os :=
  (expectClosing_tracks ht hc).mono (fun _ _ h => h.behind) fun _ _ _ h => h

/-- What comes with and without a token that may be there. -/
theorem TracksAt.accept {f : Option Token → Parse α}
    (hsome : w.current.symbol = s → (consume >>= fun t => f (some t)).TracksAt w r post)
    (hnone : (f none).TracksAt w r post) : (accept s >>= f).TracksAt w r post := by
  rw [Parse.accept, bind_assoc]
  refine .symbol ?_
  by_cases hs : w.current.symbol = s
  · rw [if_pos hs, bind_assoc]
    simpa only [pure_bind] using hsome hs
  · rw [if_neg hs, pure_bind]
    exact hnone

theorem accept_tracks (hn : s.isNeutral = true) (hne : s ≠ .eof ∧ s ≠ .kwReturn)
    (hpre : ∀ w r, pre w r → Behind os w r) :
    (accept s : Parse _).Tracks pre fun t w r => if t.isSome then At os w r else pre w r := by
  intro w r hw hr
  rw [accept]
  refine .symbol ?_
  by_cases hs : w.current.symbol = s
  · rw [if_pos hs]
    exact .pass hw hs hn hne (hpre w r hr) fun t => .pure fun w r h => h
  · rw [if_neg hs]
    exact .pure hr

theorem accept_at (hn : s.isNeutral = true) (hne : s ≠ .eof ∧ s ≠ .kwReturn) :
    (accept s : Parse _).Tracks (At os) fun _ => At os := by
  refine (accept_tracks hn hne fun _ _ h => h.behind).mono (fun _ _ h => h) fun t w r h => ?_
  cases t with
  | none => exact h
  | some t => exact h

theorem expectName_tracks : (expectName : Parse _).Tracks (At os) fun _ => At os :=
  (expect_neutral (by decide) (by decide)).bind fun _ => .pure fun _ _ h => h

/-! ## Repetition -/

theorem loop_tracks {step : α → Parse (α ⊕ β)}
    (h : ∀ a, (step a).Tracks pre fun c w r => c.elim (fun _ => pre w r) fun b => post'' b w r)
    (a : α) : (loop step a).Tracks pre post'' := by
  intro w r hw hr
  have halong : ∀ ts a, (loopAlong step ts a).Tracks pre post'' := by
    intro ts
    induction ts with
    | nil =>
      intro a
      refine (h a).bind fun c => ?_
      cases c with
      | inl a' => exact fun _ _ _ _ => .ungrammatical fun _ => rfl
      | inr b => exact .pure fun _ _ hb => hb
    | cons t ts ih =>
      intro a
      refine (h a).bind fun c => ?_
      cases c with
      | inl a' => exact ih a'
      | inr b => exact .pure fun _ _ hb => hb
  exact ⟨(halong w.ahead a w r hw hr).ok, (halong w.ahead a w r hw hr).fault⟩

/-- Steps that leave the openers that they find, whether they go on or not. -/
theorem loop_at {step : α → Parse (α ⊕ β)} (h : ∀ a, (step a).Tracks (At os) fun _ => At os)
    (a : α) : (loop step a).Tracks (At os) fun _ => At os := by
  refine loop_tracks (fun a => (h a).mono (fun _ _ h => h) fun c w r h => ?_) a
  cases c <;> exact h

theorem separated_tracks {item : Token → Parse α} (hn : s.isNeutral = true)
    (hne : s ≠ .eof ∧ s ≠ .kwReturn) (hpre : ∀ w r, pre w r → Behind os w r)
    (h : ∀ t, (item t).Tracks (At os) fun _ => pre) (first : α) :
    (separated s item first).Tracks pre fun _ => pre := by
  refine loop_tracks (fun as => (accept_tracks hn hne hpre).bind fun t => ?_) [first]
  cases t with
  | none => exact .pure fun _ _ h => h
  | some t => exact (h t).bind fun _ => .pure fun _ _ h => h

theorem commaList_tracks (h : p.Tracks (At os) fun _ => At os) :
    (commaList p).Tracks (At os) fun _ => At os :=
  h.bind fun first => separated_tracks (by decide) (by decide) (fun _ _ h => h.behind) (fun _ => h)
    first

end Parse

end LuaSource
