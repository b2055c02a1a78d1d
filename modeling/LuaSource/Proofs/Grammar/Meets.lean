-- SUMMARY: Specifications of parsers: the words they take, and how those before a fault could go on.
import LuaSource.Grammar.Parse
import LuaSource.Proofs.Grammar.Spelling

/-!
# Specifications of parsers

A parser is specified by the words that its results are spelled by. Where it gives a result,
the tokens it has taken are one of these words. Where it ends with a fault, those it has taken
up to there are the beginning of one: a fault is about the first token that no result goes on
with. So one specification says both what a result stands for and where a fault is found.

A sequence of parsers is specified as it runs: `Follows` says of the rest of a sequence what
it does behind the words `K` that its first part has taken.
-/

namespace LuaSource

/-- Whether a fault says that tokens are missing or out of place, and not that a lexeme cannot be
read or that the source is nested too far. -/
def ParseFault.isGrammatical : ParseFault → Bool
  | .lexical _ | .tooManyLevels _ => false
  | _ => true

/-! ## Plain words -/

/-- The symbols that are written in one way only. -/
def Symbol.isWritten (s : Symbol) : Bool := s ∈ Symbol.keywords ++ Symbol.punctuation

namespace Letter

def ofSymbol (s : Symbol) : Letter := { symbol := s, joined := true }

/-- The name that missing names are filled in with. -/
def x : Letter := { symbol := .name, value := some "x", joined := true }

/-- A keyword or a punctuation mark on the line of what is before it, or the one name that is
good for all. -/
def IsPlain (c : Letter) : Prop := c = x ∨ ∃ s, s.isWritten = true ∧ c = ofSymbol s

end Letter

def IsPlain (u : List Letter) : Prop := ∀ c ∈ u, c.IsPlain

theorem isPlain_nil : IsPlain [] := fun _ hc => absurd hc List.not_mem_nil

theorem IsPlain.append {u v : List Letter} (hu : IsPlain u) (hv : IsPlain v) :
    IsPlain (u ++ v) := by
  intro c hc
  rcases List.mem_append.1 hc with hc | hc
  · exact hu c hc
  · exact hv c hc

theorem isPlain_ofSymbol {s : Symbol} (h : s.isWritten = true) : IsPlain [Letter.ofSymbol s] := by
  intro c hc
  exact .inr ⟨s, h, List.mem_singleton.1 hc⟩

theorem isPlain_x : IsPlain [Letter.x] := fun _ hc => .inl (List.mem_singleton.1 hc)

/-- A language with a plain word in it. -/
def HasPlain (L : Language Letter) : Prop := ∃ v ∈ L, IsPlain v

namespace HasPlain

variable {L M : Language Letter}

theorem one : HasPlain 1 := ⟨[], Language.nil_mem_one, isPlain_nil⟩

theorem mul (hL : HasPlain L) (hM : HasPlain M) : HasPlain (L * M) := by
  obtain ⟨u, hu, pu⟩ := hL
  obtain ⟨v, hv, pv⟩ := hM
  exact ⟨u ++ v, Language.append_mem_mul hu hv, pu.append pv⟩

theorem mono (h : L ≤ M) (hL : HasPlain L) : HasPlain M := by
  obtain ⟨u, hu, pu⟩ := hL
  exact ⟨u, h hu, pu⟩

theorem symbol {s : Symbol} (h : s.isWritten = true) : HasPlain (Spelling.symbol s) :=
  ⟨_, ⟨Letter.ofSymbol s, rfl, rfl⟩, isPlain_ofSymbol h⟩

theorem name : HasPlain (Spelling.name ⟨"x", default⟩) :=
  ⟨_, ⟨Letter.x, ⟨rfl, rfl⟩, rfl⟩, isPlain_x⟩

end HasPlain

/-! ## Windows behind a word of a language -/

namespace Window

variable {w w' w'' : Window} {L M : Language Letter}

/-- The tokens between two windows make up a word of `L`. -/
def Reads (w : Window) (L : Language Letter) (w' : Window) : Prop := ∃ u ∈ L, w.Advance u w'

/-- The tokens between two windows begin a word of `L`, which is plain from there on. -/
def Opens (w : Window) (L : Language Letter) (w' : Window) : Prop :=
  ∃ u v, w.Advance u w' ∧ IsPlain v ∧ u ++ v ∈ L

theorem Reads.refl (hw : w.Proper) : w.Reads 1 w := ⟨[], Language.nil_mem_one, .refl hw⟩

theorem Reads.proper (h : w.Reads L w') : w'.Proper := by
  obtain ⟨u, -, h⟩ := h
  exact h.proper

theorem Reads.mul (h : w.Reads L w') (h' : w'.Reads M w'') : w.Reads (L * M) w'' := by
  obtain ⟨u, hu, h⟩ := h
  obtain ⟨v, hv, h'⟩ := h'
  exact ⟨u ++ v, Language.append_mem_mul hu hv, h.trans h'⟩

theorem Reads.mono (hLM : L ≤ M) (h : w.Reads L w') : w.Reads M w' := by
  obtain ⟨u, hu, h⟩ := h
  exact ⟨u, hLM hu, h⟩

/-- At the end of a word, another one begins. -/
theorem Reads.opens (h : w.Reads L w') (ho : w'.Opens M w'') : w.Opens (L * M) w'' := by
  obtain ⟨u, hu, h⟩ := h
  obtain ⟨v, v', ho, pv, hv⟩ := ho
  refine ⟨u ++ v, v', h.trans ho, pv, ?_⟩
  rw [List.append_assoc]
  exact Language.append_mem_mul hu hv

theorem Reads.opens_self (h : w.Reads L w') : w.Opens L w' := by
  obtain ⟨u, hu, h⟩ := h
  exact ⟨u, [], h, isPlain_nil, by rwa [List.append_nil]⟩

/-- Where any word begins. -/
theorem Opens.refl (hw : w.Proper) (hL : HasPlain L) : w.Opens L w := by
  obtain ⟨v, hv, pv⟩ := hL
  exact ⟨[], v, .refl hw, pv, hv⟩

end Window

/-! ## Specifications -/

namespace Parse

open Parsing

variable {α β : Type} {w₀ w : Window} {K : Language Letter} {Φ : Window → Prop}
  {N : α → Language Letter} {Q : α → Prop} {S : α → Window → Prop}

/-- What a parser does at a window `w` behind `w₀`. A result `a` is spelled by the tokens since
`w₀` and has the property `Q`, and what the parser leaves has the property `S`. A grammatical
fault is about the current token of a window up to which the tokens could go on to such a
result. -/
structure Meets (p : Parse α) (w₀ w : Window) (N : α → Language Letter) (Q : α → Prop)
    (S : α → Window → Prop) : Prop where
  ok : ∀ {a w'}, p w = .ok (a, w') → w₀.Reads (N a) w' ∧ Q a ∧ S a w'
  fault : ∀ {e}, p w = .error e → e.cause.isGrammatical = true →
    ∃ a w', w₀.Opens (N a) w' ∧ Q a ∧ e.span = w'.current.span

/-- Words of `K` can go on plainly to a result. -/
def Completes (K : Language Letter) (N : α → Language Letter) (Q : α → Prop) : Prop :=
  ∃ a, Q a ∧ ∃ v, IsPlain v ∧ ∀ u ∈ K, u ++ v ∈ N a

/-- What a parser does behind a word of `K`, at a window with the property `Φ`. -/
structure Follows (p : Parse α) (w₀ : Window) (K : Language Letter) (Φ : Window → Prop)
    (N : α → Language Letter) (Q : α → Prop) (S : α → Window → Prop) : Prop where
  completes : Completes K N Q
  meets : ∀ w, w₀.Reads K w → Φ w → p.Meets w₀ w N Q S

theorem bind_eq_error_iff {p : Parse α} {f : α → Parse β} {e : Located ParseFault} :
    (p >>= f) w = .error e ↔
      p w = .error e ∨ ∃ a w', p w = .ok (a, w') ∧ f a w' = .error e := by
  rw [bind_apply]
  cases h : p w with
  | error e' => simp [Except.bind]
  | ok r =>
    obtain ⟨a, w'⟩ := r
    constructor
    · intro hf
      exact .inr ⟨a, w', rfl, hf⟩
    · rintro (h' | ⟨a', w'', heq, hf⟩)
      · cases h'
      · cases heq
        exact hf

theorem Completes.of_le {a : α} (hK : K ≤ N a) (hQ : Q a) : Completes K N Q :=
  ⟨a, hQ, [], isPlain_nil, fun u hu => by rw [List.append_nil]; exact hK hu⟩

theorem Completes.of_plain (h : ∃ a, Q a ∧ HasPlain (N a)) : Completes 1 N Q := by
  obtain ⟨a, hQ, v, hv, pv⟩ := h
  refine ⟨a, hQ, v, pv, fun u hu => ?_⟩
  rw [(Language.mem_one u).1 hu]
  exact hv

/-- What words can go on to, their beginnings can if the gap can be filled in. -/
theorem Completes.of_mul {L : Language Letter} (hL : HasPlain L)
    (h : Completes (K * L) N Q) : Completes K N Q := by
  obtain ⟨v, hv, pv⟩ := hL
  obtain ⟨a, ha, v', pv', h⟩ := h
  refine ⟨a, ha, v ++ v', pv.append pv', fun u hu => ?_⟩
  rw [← List.append_assoc]
  exact h _ (Language.append_mem_mul hu hv)

/-- What begins a word of `K` begins a result. -/
theorem Completes.opens {w' : Window} (h : Completes K N Q) (ho : w₀.Opens K w') :
    ∃ a, w₀.Opens (N a) w' ∧ Q a := by
  obtain ⟨u, v, ho, pv, hv⟩ := ho
  obtain ⟨a, ha, v', pv', h⟩ := h
  refine ⟨a, ⟨u, v ++ v', ho, pv.append pv', ?_⟩, ha⟩
  rw [← List.append_assoc]
  exact h _ hv

/-- A parser that stands at the beginning of what it is specified by. -/
theorem Follows.start {p : Parse α} (h : p.Follows w 1 Φ N Q S) (hw : w.Proper) (hΦ : Φ w) :
    p.Meets w w N Q S :=
  h.meets w (.refl hw) hΦ

theorem Meets.mono {p : Parse α} {Q' : α → Prop} {S' : α → Window → Prop}
    (h : p.Meets w₀ w N Q S) (hQ : ∀ a, Q a → Q' a)
    (hS : ∀ a w', Q a → S a w' → S' a w') : p.Meets w₀ w N Q' S' where
  ok hok := by
    obtain ⟨hr, hq, hs⟩ := h.ok hok
    exact ⟨hr, hQ _ hq, hS _ _ hq hs⟩
  fault herr hg := by
    obtain ⟨a, w', ho, hq, hspan⟩ := h.fault herr hg
    exact ⟨a, w', ho, hQ _ hq, hspan⟩

/-- Only what a parser does at the window counts. -/
theorem Meets.congr {p q : Parse α} (h : p w = q w) (hq : q.Meets w₀ w N Q S) :
    p.Meets w₀ w N Q S where
  ok hok := hq.ok (h.symm.trans hok)
  fault herr := hq.fault (h.symm.trans herr)

theorem Meets.symbol {f : Symbol → Parse α} (h : (f w.current.symbol).Meets w₀ w N Q S) :
    (symbol >>= f).Meets w₀ w N Q S :=
  .congr (q := f w.current.symbol) rfl h

theorem Meets.current {f : Token → Parse α} (h : (f w.current).Meets w₀ w N Q S) :
    (current >>= f).Meets w₀ w N Q S :=
  .congr (q := f w.current) rfl h

theorem Follows.mono {p : Parse α} {Φ' : Window → Prop} (h : p.Follows w₀ K Φ N Q S)
    (hΦ : ∀ w, Φ' w → Φ w) : p.Follows w₀ K Φ' N Q S :=
  ⟨h.completes, fun w hr hw => h.meets w hr (hΦ w hw)⟩

theorem Meets.pure {a : α} (hr : w₀.Reads (N a) w) (hQ : Q a) (hS : S a w) :
    (pure a : Parse α).Meets w₀ w N Q S where
  ok h := by
    cases h
    exact ⟨hr, hQ, hS⟩
  fault h := by cases h

theorem Follows.congr {p q : Parse α} (h : ∀ w, Φ w → p w = q w)
    (hq : q.Follows w₀ K Φ N Q S) : p.Follows w₀ K Φ N Q S where
  completes := hq.completes
  meets w hr hΦ := .congr (h w hΦ) (hq.meets w hr hΦ)

/-! ## Rules for sequences

What held at the windows passed on the way is remembered as held at some window. -/

theorem Follows.pure {a : α} (hK : K ≤ N a) (hQ : Q a) (hS : ∀ w, Φ w → S a w) :
    (pure a : Parse α).Follows w₀ K Φ N Q S where
  completes := .of_le hK hQ
  meets w hr hΦ := .pure (hr.mono hK) hQ (hS w hΦ)

/-- A fault at the current token, which could be another one. -/
theorem Follows.fail {fault : String → ParseFault} (h : Completes K N Q) :
    (fail fault : Parse α).Follows w₀ K Φ N Q S where
  completes := h
  meets w hr _ :=
    { ok := by
        intro a w' h
        cases h
      fault := by
        intro e he _
        cases he
        obtain ⟨a, ho, hq⟩ := h.opens hr.opens_self
        exact ⟨a, w, ho, hq, rfl⟩ }

theorem Follows.bind {p : Parse α} {f : α → Parse β} {L : α → Language Letter} {G : α → Prop}
    {F : α → Window → Prop} {N : β → Language Letter} {Q : β → Prop} {S : β → Window → Prop}
    (hp : ∀ w, w.Proper → Φ w → p.Meets w w L G F) (hd : ∃ a, G a ∧ HasPlain (L a))
    (hf : ∀ a, G a → (f a).Follows w₀ (K * L a) (fun w' => F a w' ∧ ∃ w, Φ w) N Q S) :
    (p >>= f).Follows w₀ K Φ N Q S where
  completes := by
    obtain ⟨a, ha, hL⟩ := hd
    exact (hf a ha).completes.of_mul hL
  meets w hr hΦ :=
    { ok := by
        intro b w'' h
        obtain ⟨a, w', h₁, h₂⟩ := bind_eq_ok_iff.1 h
        obtain ⟨hr', ha, hF⟩ := (hp w hr.proper hΦ).ok h₁
        exact ((hf a ha).meets w' (hr.mul hr') ⟨hF, w, hΦ⟩).ok h₂
      fault := by
        intro e h hg
        rcases bind_eq_error_iff.1 h with h₁ | ⟨a, w', h₁, h₂⟩
        · obtain ⟨a, w', ho, ha, hspan⟩ := (hp w hr.proper hΦ).fault h₁ hg
          obtain ⟨b, ho, hb⟩ := (hf a ha).completes.opens (hr.opens ho)
          exact ⟨b, w', ho, hb, hspan⟩
        · obtain ⟨hr', ha, hF⟩ := (hp w hr.proper hΦ).ok h₁
          exact ((hf a ha).meets w' (hr.mul hr') ⟨hF, w, hΦ⟩).fault h₂ hg }

/-- The last parser of a sequence. -/
theorem Follows.last {p : Parse α} {L : α → Language Letter} {G : α → Prop}
    {F : α → Window → Prop} (hp : ∀ w, w.Proper → Φ w → p.Meets w w L G F)
    (hd : ∃ a, G a ∧ HasPlain (L a)) (hN : ∀ a, G a → K * L a ≤ N a) (hQ : ∀ a, G a → Q a)
    (hS : ∀ a w', G a → F a w' → (∃ w, Φ w) → S a w') : p.Follows w₀ K Φ N Q S := by
  rw [← bind_pure p]
  exact .bind hp hd fun a ha => .pure (hN a ha) (hQ a ha) fun w' h => hS a w' ha h.1 h.2

theorem Follows.symbol {f : Symbol → Parse α}
    (hf : ∀ s, (f s).Follows w₀ K (fun w => Φ w ∧ w.current.symbol = s) N Q S) :
    (symbol >>= f).Follows w₀ K Φ N Q S where
  completes := (hf .eof).completes
  meets w hr hΦ := .symbol ((hf w.current.symbol).meets w hr ⟨hΦ, rfl⟩)

theorem Follows.onSameLine {f : Bool → Parse α}
    (hf : ∀ b, (f b).Follows w₀ K (fun w => Φ w ∧ (w.current.letter w.before).joined = b) N Q S) :
    (onSameLine >>= f).Follows w₀ K Φ N Q S where
  completes := (hf true).completes
  meets w hr hΦ :=
    .congr (q := f (w.current.letter w.before).joined) rfl ((hf _).meets w hr ⟨hΦ, rfl⟩)

theorem Follows.followingSymbol {f : Symbol → Parse α}
    (hf : ∀ s, (f s).Follows w₀ K (fun w => Φ w ∧ w.following.symbol = s) N Q S) :
    (followingSymbol >>= f).Follows w₀ K Φ N Q S where
  completes := (hf .eof).completes
  meets w hr hΦ :=
    .congr (q := f w.following.symbol) rfl ((hf w.following.symbol).meets w hr ⟨hΦ, rfl⟩)

end Parse

end LuaSource
