-- SUMMARY: What a parse takes from the lexer, and which answer of the lexer a failed parse is about.
import LuaSource.Proofs.Fault
import LuaSource.Proofs.Grammar.Orderly
import LuaSource.Proofs.Lexer.Cover

/-!
# Parser and lexer

A parser reads from the lexer two tokens ahead of the one that it takes. So it meets an error of the
lexer before it comes to it, and no fault is about a token behind which something cannot be read.
-/

namespace LuaSource

/-! ## Taking tokens -/

namespace Window

/-- The tokens are taken from the first window one after the other, which leaves the second. -/
inductive Consumes : Window → List Token → Window → Prop
  | nil {w : Window} : Consumes w [] w
  | cons {w w' w'' : Window} {t : Token} {ts : List Token} (h : w.consume = .ok (t, w'))
      (hs : Consumes w' ts w'') : Consumes w (t :: ts) w''

variable {w w' : Window} {k : Nat}

theorem consumes_of_advance (h : w.advance k = .ok w') (hk : k ≤ w.ahead.length) :
    w.Consumes (w.ahead.take k) w' := by
  induction k generalizing w with
  | zero =>
    cases h
    exact .nil
  | succ k ih =>
    obtain ⟨ahead, ending, before⟩ := w
    cases ahead with
    | nil => cases hk
    | cons t ts =>
      unfold advance at h
      cases hconsume : Window.consume ⟨t :: ts, ending, before⟩ with
      | error e =>
        rw [hconsume] at h
        cases h
      | ok r =>
        rw [hconsume] at h
        obtain ⟨ht, hr⟩ := consume_eq_ok hconsume
        have hrest := @ih r.2 h (by rw [hr]; exact Nat.le_of_succ_le_succ hk)
        rw [hr] at hrest
        have hconsume' : Window.consume ⟨t :: ts, ending, before⟩ =
            .ok (t, ⟨ts, ending, t.span.stop⟩) := by
          rw [hconsume]
          exact congrArg Except.ok (Prod.ext ht hr)
        exact .cons hconsume' hrest

end Window

/-! ## Reading on demand -/

/-- The two tokens that a parser sees, and the lexer that it reads the next ones from. -/
structure Lookahead where
  lexer : Lexer
  current : Token
  following : Token
  before : Position

namespace Lookahead

/-- The first two tokens. -/
def ofLexer (l : Lexer) : Except (Located ParseFault) Lookahead :=
  match l.next with
  | (.error e, _) => .error e.toFault
  | (.ok current, l) =>
    match l.next with
    | (.error e, _) => .error e.toFault
    | (.ok following, l) => .ok ⟨l, current, following, Position.start⟩

/-- Read one token more, and take the current one. -/
def consume (s : Lookahead) : Except (Located ParseFault) (Token × Lookahead) :=
  match s.lexer.next with
  | (.error e, _) => .error e.toFault
  | (.ok t, lexer) => .ok (s.current, ⟨lexer, s.following, t, s.current.span.stop⟩)

end Lookahead

/-- The window shows the tokens that were read from the lexer, and the lexer has those behind them
still to read. -/
structure Window.Shows (w : Window) (s : Lookahead) : Prop where
  current : s.current = w.current
  following : s.following = w.following
  before : s.before = w.before
  readable : w.errorWithin? 2 = none
  rest : ∃ p, s.lexer.At p ∧ p.Yields (w.ahead.drop 2) w.ending

/-- What a lexer answers in reading the tokens from a place on: the first of them or, if there is
none, what they end with. Behind the end of the source it is at the same end again. -/
theorem Lexer.At.next_of_yields {l : Lexer} {p : Place} {ts : List Token}
    {ending : Except (Located LexError) Token} (hl : l.At p) (hy : p.Yields ts ending) :
    (∃ e l', ending = .error e ∧ ts = [] ∧ l.next = (.error e, l')) ∨
      ∃ t l' q, (∀ before, Window.current ⟨ts, ending, before⟩ = t) ∧
        (∀ e, ending = .error e → 0 < ts.length) ∧ l.next = (.ok t, l') ∧ l'.At q ∧
        q.Yields ts.tail ending := by
  obtain ⟨hanswer, hat⟩ := hl.next
  cases hy with
  | @ends _ q _ hread hr =>
    rw [hread] at hanswer hat
    cases ending with
    | error e => exact .inl ⟨e, _, rfl, rfl, Prod.ext hanswer rfl⟩
    | ok eof =>
      obtain ⟨-, -, -, hagain⟩ := Place.readToken_eof hread (hr eof rfl)
      exact .inr ⟨eof, _, q, fun _ => rfl, nofun, Prod.ext hanswer rfl, hat, .ends hagain hr⟩
  | @token _ q t ts _ hread ht hq =>
    rw [hread] at hanswer hat
    exact .inr ⟨t, _, q, fun _ => rfl, fun _ _ => Nat.succ_pos _, Prod.ext hanswer rfl, hat, hq⟩

/-- The first window on a source is read from its lexer on demand, or fails with the same error. -/
theorem Window.shows_ofTokens {l : Lexer} {p : Place} {ts : Tokens} (hl : l.At p)
    (hy : p.Yields ts.tokens ts.ending) :
    (∃ e, Window.ofTokens ts = .error e ∧ Lookahead.ofLexer l = .error e) ∨
      ∃ w s, Window.ofTokens ts = .ok w ∧ Lookahead.ofLexer l = .ok s ∧ w.Shows s := by
  obtain ⟨tokens, ending⟩ := ts
  rcases hl.next_of_yields hy with ⟨e, l', rfl, rfl, hnext⟩ | ⟨t, l', q, ht, -, hnext, hl', hy'⟩
  · refine .inl ⟨e.toFault, rfl, ?_⟩
    rw [Lookahead.ofLexer, hnext]
  rcases hl'.next_of_yields hy' with
    ⟨e, l'', rfl, htail, hnext'⟩ | ⟨u, l'', r, hu, hlength, hnext', hl'', hy''⟩
  · have htwo : Window.errorWithin? ⟨tokens, .error e, Position.start⟩ 2 = some e := by
      refine Window.errorWithin?_eq_some_iff.2 ⟨rfl, ?_⟩
      have hlength := congrArg List.length htail
      rw [List.length_tail] at hlength
      exact Nat.le_of_sub_eq_zero hlength
    refine .inl ⟨e.toFault, ?_, ?_⟩
    · rw [Window.ofTokens, htwo]
    · rw [Lookahead.ofLexer, hnext]
      dsimp only
      rw [hnext']
  · have htwo : Window.errorWithin? ⟨tokens, ending, Position.start⟩ 2 = none := by
      refine Window.errorWithin?_eq_none_iff.2 fun e he => ?_
      have hpos := hlength e he
      rw [List.length_tail] at hpos
      exact Nat.lt_of_sub_pos hpos
    have hfollowing : Window.following ⟨tokens, ending, Position.start⟩ = u := by
      rw [← hu Position.start]
      cases tokens with
      | nil => rfl
      | cons t ts => cases ts <;> rfl
    refine .inr ⟨⟨tokens, ending, Position.start⟩, ⟨l'', t, u, Position.start⟩, ?_, ?_, ?_⟩
    · rw [Window.ofTokens, htwo]
    · rw [Lookahead.ofLexer, hnext]
      dsimp only
      rw [hnext']
    · refine ⟨(ht _).symm, hfollowing.symm, rfl, htwo, r, hl'', ?_⟩
      rwa [← List.drop_one, ← List.drop_one, List.drop_drop] at hy''

/-- Taking a token takes reading one from the lexer, which fails where the window does. -/
theorem Window.Shows.consume {w : Window} {s : Lookahead} (h : w.Shows s) :
    (∃ e, w.consume = .error e ∧ s.consume = .error e) ∨
      ∃ t w' s', w.consume = .ok (t, w') ∧ s.consume = .ok (t, s') ∧ w'.Shows s' := by
  obtain ⟨hcurrent, hfollowing, hbefore, hreadable, p, hp, hy⟩ := h
  rcases hp.next_of_yields hy with
    ⟨e, l', he, hrest, hnext⟩ | ⟨t, l', q, ht, hlength, hnext, hl', hy'⟩
  · have hthree : w.errorWithin? 3 = some e :=
      Window.errorWithin?_eq_some_iff.2 ⟨he, List.drop_eq_nil_iff.1 hrest⟩
    refine .inl ⟨e.toFault, ?_, ?_⟩
    · rw [Window.consume, hthree]
    · rw [Lookahead.consume, hnext]
  · have hthree : w.errorWithin? 3 = none := by
      refine Window.errorWithin?_eq_none_iff.2 fun e he => ?_
      have hpos := hlength e he
      rw [List.length_drop] at hpos
      omega
    have hconsume : w.consume =
        .ok (w.current, ⟨w.ahead.tail, w.ending, w.current.span.stop⟩) := by
      rw [Window.consume, hthree]
    refine .inr ⟨w.current, _, ⟨l', s.following, t, s.current.span.stop⟩, hconsume, ?_, ?_⟩
    · rw [Lookahead.consume, hnext, hcurrent]
    · have htoken : w.token 2 = t := by
        rw [← ht w.before, ← Window.token_zero]
        show w.ahead[2]?.getD w.endToken = (w.ahead.drop 2)[0]?.getD w.endToken
        rw [List.getElem?_drop]
      refine ⟨?_, ?_, congrArg (·.span.stop) hcurrent, ?_, q, hl', ?_⟩
      · rw [← Window.token_zero, Window.token_of_consume hconsume, hfollowing]
        rfl
      · rw [← Window.token_one, Window.token_of_consume hconsume, htoken]
      · refine Window.errorWithin?_eq_none_iff.2 fun e he => ?_
        have hpos := hlength e he
        rw [List.length_drop] at hpos
        show 1 < w.ahead.tail.length
        rw [List.length_tail]
        omega
      · rw [List.tail_drop] at hy'
        rwa [← List.drop_one, List.drop_drop]

/-- Taking tokens one after the other. -/
inductive Lookahead.Consumes : Lookahead → List Token → Lookahead → Prop
  | nil {s : Lookahead} : Consumes s [] s
  | cons {s s' s'' : Lookahead} {t : Token} {ts : List Token} (h : s.consume = .ok (t, s'))
      (hs : Consumes s' ts s'') : Consumes s (t :: ts) s''

/-- Whatever a parser takes, it can read from the lexer on demand. -/
theorem Window.Consumes.on_demand {w w' : Window} {ts : List Token} {s : Lookahead}
    (h : w.Consumes ts w') (hs : w.Shows s) : ∃ s', s.Consumes ts s' ∧ w'.Shows s' := by
  induction h generalizing s with
  | nil => exact ⟨s, .nil, hs⟩
  | cons h _ ih =>
    rcases hs.consume with ⟨e, hw, -⟩ | ⟨t, w', s', hw, hs', hshows⟩
    · rw [h] at hw
      cases hw
    · rw [h] at hw
      cases hw
      obtain ⟨s'', hconsumes, hshows⟩ := ih hshows
      exact ⟨s'', .cons hs' hconsumes, hshows⟩

/-! ## The story of a parse -/

section Story

variable {w w' : Window} {k : Nat}

/-- Where two tokens are to be seen at first, they are wherever tokens are taken. -/
theorem Window.lt_length_of_advance (hreadable : w.errorWithin? 2 = none)
    (h : w.advance k = .ok w') {e : Located LexError} (he : w.ending = .error e) :
    k + 1 < w.ahead.length := by
  by_contra hlength
  have hsome : w.errorWithin? (k + 2) = some e :=
    Window.errorWithin?_eq_some_iff.2 ⟨he, by omega⟩
  rw [Window.advance_of_some hreadable hsome] at h
  cases h

/-- Calls of the lexer answer with the tokens of the window; behind the end of the source the window
shows the end. -/
theorem Lexer.At.answer_min {l : Lexer} {p : Place} {ts : Tokens} (hl : l.At p)
    (hy : p.Yields ts.tokens ts.ending)
    (hread : ∀ e, ts.ending = .error e → k < ts.tokens.length) :
    l.answer (min k ts.tokens.length) = .ok (ts.window.token k) := by
  obtain ⟨htokens, hending, -⟩ := hl.yields hy
  rcases Nat.lt_or_ge k ts.tokens.length with hlt | hge
  · have htoken : ts.window.ahead[k]? = some ts.tokens[k] := List.getElem?_eq_getElem hlt
    rw [Nat.min_eq_left (Nat.le_of_lt hlt), htokens k hlt, Window.token, htoken]
    rfl
  · have htoken : ts.window.ahead[k]? = none := List.getElem?_eq_none hge
    rw [Nat.min_eq_right hge, hending, Window.token, htoken, Option.getD_none]
    cases heof : ts.ending with
    | error e => exact absurd (hread e heof) (Nat.not_lt.2 hge)
    | ok eof =>
      have hlast : ts.window.ending = .ok eof := heof
      rw [Window.endToken, hlast]

namespace Tokens

variable {ts : Tokens} {depth : Nat}

/-- A program is parsed by taking its tokens up to the end. -/
theorem consumes_of_parse {b : Block} (hproper : ts.window.Proper) (h : ts.parse depth = .ok b) :
    ∃ eof last, ts.ending = .ok eof ∧ eof.symbol = .eof ∧
      Grammar.chunk (Level.ofDepth depth) ts.window = .ok (b, last) ∧
      ts.window.Consumes ts.tokens last ∧ last.current = eof := by
  obtain ⟨last, hchunk⟩ := exists_chunk h
  have hreadable := errorWithin?_of_parse h
  obtain ⟨-, -, -, hsymbol⟩ := (chunk_meets hproper).ok hchunk
  obtain ⟨k, -, hk, hadvance, -⟩ := (Local.chunk_local depth _ hproper).advance hproper hchunk
  have hnil := (Window.proper_of_advance hproper hadvance).ahead_eq_nil hsymbol
  have hlength : ts.tokens.length ≤ k := by
    rw [Window.ahead_of_advance hadvance] at hnil
    exact List.drop_eq_nil_iff.1 hnil
  have hconsumes : ts.window.Consumes (ts.tokens.take k) last :=
    Window.consumes_of_advance hadvance hk
  rw [List.take_of_length_le hlength] at hconsumes
  have hcurrent : last.current = last.endToken := by
    rw [← Window.token_zero, Window.token, hnil]
    rfl
  cases hending : ts.ending with
  | error e =>
    have hlt : k + 1 < ts.tokens.length := Window.lt_length_of_advance hreadable hadvance hending
    omega
  | ok eof =>
    have hlast : last.ending = .ok eof := (Window.ending_of_advance hadvance).trans hending
    have heof : last.endToken = eof := by
      rw [Window.endToken, hlast]
    rw [hcurrent, heof] at hsymbol
    exact ⟨eof, last, rfl, hsymbol, hchunk, hconsumes, hcurrent.trans heof⟩

/-- A parse fails with the error that the tokens end with or at one of the tokens, with a token
more to be seen behind this one. -/
theorem fault_of_parse_eq {e : Located ParseFault} (h : ts.parse depth = .error e) :
    (∃ le, ts.ending = .error le ∧ e = le.toFault) ∨
      ∃ k, e.cause.near? = some (ts.window.token k).text ∧ e.span = (ts.window.token k).span ∧
        ∀ le, ts.ending = .error le → k + 1 < ts.tokens.length := by
  rw [parse_eq] at h
  split at h
  · next le hle =>
    cases h
    exact .inl ⟨le, (Window.errorWithin?_eq_some_iff.1 hle).1, rfl⟩
  · next hreadable =>
    cases hchunk : Grammar.chunk (Level.ofDepth depth) ts.window with
    | ok r =>
      rw [hchunk] at h
      cases h
    | error fault =>
      rw [hchunk] at h
      cases h
      obtain ⟨k, w, hadvance, hraises⟩ := (Orderly.chunk_orderly depth).fault hchunk
      rcases hraises with ⟨le, hle, heq⟩ | ⟨hnear, hspan⟩
      · have hending := (Window.errorWithin?_eq_some_iff.1 hle).1
        exact .inl ⟨le, (Window.ending_of_advance hadvance).symm.trans hending, heq⟩
      · rw [← Window.token_zero, Window.token_of_advance hadvance] at hnear hspan
        exact .inr ⟨k, hnear, hspan, fun le hle =>
          Window.lt_length_of_advance hreadable hadvance hle⟩

theorem ofTokens_of_parse {b : Block} (h : ts.parse depth = .ok b) :
    Window.ofTokens ts = .ok ts.window := by
  have hreadable : Window.errorWithin? ⟨ts.tokens, ts.ending, Position.start⟩ 2 = none :=
    errorWithin?_of_parse h
  rw [Window.ofTokens, hreadable]
  rfl

end Tokens

variable {source : String} {options : ParseOptions}

/-- The calls of a lexer answer with the tokens of its source. -/
theorem answer_ofSource (source : String) (skipShebang : Bool) {n : Nat}
    (hn : n < (Tokens.ofSource source skipShebang).tokens.length) :
    (Lexer.ofSource source skipShebang).answer n =
        .ok (Tokens.ofSource source skipShebang).tokens[n] ∧
      (Tokens.ofSource source skipShebang).tokens[n].symbol ≠ .eof := by
  obtain ⟨htokens, -⟩ := (Lexer.at_ofSource source skipShebang).yields (Place.yields_ofPlace _)
  have hproper := Tokens.proper_ofSource source skipShebang
  exact ⟨htokens n hn, (hproper.ahead _ (List.getElem_mem hn)).1⟩

/-- A program is parsed by taking every token that the lexer answers with, up to the end. -/
theorem consumed_of_parse {b : Block} (h : parse source options = .ok b) :
    ∃ ts eof last s s',
      (∀ n (hn : n < ts.length), (Lexer.ofSource source options.skipShebang).answer n = .ok ts[n] ∧
        ts[n].symbol ≠ .eof) ∧
      (Lexer.ofSource source options.skipShebang).answer ts.length = .ok eof ∧ eof.symbol = .eof ∧
      Grammar.chunk (Level.ofDepth options.maxDepth)
        (Tokens.ofSource source options.skipShebang).window = .ok (b, last) ∧
      (Tokens.ofSource source options.skipShebang).window.Consumes ts last ∧ last.current = eof ∧
      Lookahead.ofLexer (Lexer.ofSource source options.skipShebang) = .ok s ∧ s.Consumes ts s' ∧
      last.Shows s' := by
  have hyields : Place.Yields (Place.ofSource source.toList options.skipShebang)
      (Tokens.ofSource source options.skipShebang).tokens
      (Tokens.ofSource source options.skipShebang).ending := Place.yields_ofPlace _
  have hat := Lexer.at_ofSource source options.skipShebang
  have hparse := parse_eq_ok_iff.1 h
  obtain ⟨eof, last, heof, hsymbol, hchunk, hconsumes, hlast⟩ :=
    Tokens.consumes_of_parse (Tokens.proper_ofSource source options.skipShebang) hparse
  have hanswer := (hat.yields hyields).2.1.trans heof
  rcases Window.shows_ofTokens hat hyields with ⟨e, he, -⟩ | ⟨w, s, hw, hs, hshows⟩
  · rw [Tokens.ofTokens_of_parse hparse] at he
    cases he
  · rw [Tokens.ofTokens_of_parse hparse] at hw
    cases hw
    obtain ⟨s', hconsumes', hshows'⟩ := hconsumes.on_demand hshows
    exact ⟨_, eof, last, s, s', fun _ hn => answer_ofSource _ _ hn, hanswer, hsymbol, hchunk,
      hconsumes, hlast, hs, hconsumes', hshows'⟩

/-- A parse fails with the first error of the lexer, or at a token that the lexer answers with, and
then with another one behind it. -/
theorem answered_of_parse {e : ParseError} (h : parse source options = .error e) :
    ∃ n, (∀ m < n, ∃ t, (Lexer.ofSource source options.skipShebang).answer m = .ok t ∧
        t.symbol ≠ .eof) ∧
      ((∃ cause, e.cause = .lexical cause ∧
          (Lexer.ofSource source options.skipShebang).answer n = .error ⟨cause, e.span⟩) ∨
        ∃ t, (Lexer.ofSource source options.skipShebang).answer n = .ok t ∧ t.span = e.span ∧
          e.cause.near? = some t.text ∧ (t.symbol ≠ .eof →
            ∃ u, (Lexer.ofSource source options.skipShebang).answer (n + 1) = .ok u)) := by
  have hyields : Place.Yields (Place.ofSource source.toList options.skipShebang)
      (Tokens.ofSource source options.skipShebang).tokens
      (Tokens.ofSource source options.skipShebang).ending := Place.yields_ofPlace _
  have hat := Lexer.at_ofSource source options.skipShebang
  have hproper := Tokens.proper_ofSource source options.skipShebang
  have hbefore : ∀ m < (Tokens.ofSource source options.skipShebang).tokens.length,
      ∃ t, (Lexer.ofSource source options.skipShebang).answer m = .ok t ∧ t.symbol ≠ .eof :=
    fun m hm => ⟨_, answer_ofSource _ _ hm⟩
  have hparse := (parse_eq_error_iff.1 h).1
  generalize Tokens.ofSource source options.skipShebang = ts at *
  rcases Tokens.fault_of_parse_eq hparse with ⟨le, hle, heq⟩ | ⟨k, hnear, hspan, hnext⟩
  · have hspan : e.span = le.span := congrArg (·.span) heq
    refine ⟨ts.tokens.length, hbefore, .inl ⟨le.cause, congrArg (·.cause) heq, ?_⟩⟩
    rw [hspan]
    exact (hat.yields hyields).2.1.trans hle
  · have hanswer := hat.answer_min hyields fun le hle => Nat.lt_of_succ_lt (hnext le hle)
    refine ⟨min k ts.tokens.length, fun m hm => hbefore m (Nat.lt_of_lt_of_le hm
      (Nat.min_le_right _ _)), .inr ⟨_, hanswer, hspan.symm, hnear, fun hsymbol => ?_⟩⟩
    have hlt : k < ts.tokens.length := by
      by_contra hge
      have htoken : ts.window.ahead[k]? = none := List.getElem?_eq_none (Nat.le_of_not_lt hge)
      rw [Window.token, htoken] at hsymbol
      exact hsymbol hproper.symbol_endToken
    refine ⟨ts.window.token (k + 1), ?_⟩
    rw [Nat.min_eq_left (Nat.le_of_lt hlt), ← hat.answer_min hyields hnext,
      Nat.min_eq_left (Nat.succ_le_of_lt hlt)]

/-- A parse takes all tokens of the source that it parses, as they are read from the lexer. One that
fails with an error of the lexer fails with the first that calls of the lexer answer with. Any other
fault is about a token that a call answers with, which it quotes, and the next call answers with a
token as well. -/
theorem parse_story (source : String) (options : ParseOptions) :
    let l := Lexer.ofSource source options.skipShebang
    let first := (Tokens.ofSource source options.skipShebang).window
    match parse source options with
    | .ok b => ∃ ts eof last s s',
        (∀ n (hn : n < ts.length), l.answer n = .ok ts[n] ∧ ts[n].symbol ≠ .eof) ∧
        l.answer ts.length = .ok eof ∧ eof.symbol = .eof ∧
        Grammar.chunk (Level.ofDepth options.maxDepth) first = .ok (b, last) ∧
        first.Consumes ts last ∧ last.current = eof ∧
        Lookahead.ofLexer l = .ok s ∧ s.Consumes ts s' ∧ last.Shows s'
    | .error e => ∃ n, (∀ m < n, ∃ t, l.answer m = .ok t ∧ t.symbol ≠ .eof) ∧
        match e.cause with
        | .lexical cause => l.answer n = .error ⟨cause, e.span⟩
        | fault => ∃ t, l.answer n = .ok t ∧ t.span = e.span ∧ fault.near? = some t.text ∧
            (t.symbol ≠ .eof → ∃ u, l.answer (n + 1) = .ok u) := by
  dsimp only
  cases hparse : parse source options with
  | ok b => exact consumed_of_parse hparse
  | error e =>
    obtain ⟨n, hbefore, ⟨cause, hcause, hanswer⟩ | ⟨t, hanswer, hspan, hnear, hnext⟩⟩ :=
      answered_of_parse hparse
    · refine ⟨n, hbefore, ?_⟩
      rw [hcause]
      exact hanswer
    · refine ⟨n, hbefore, ?_⟩
      split
      · next hcause =>
        -- An error of the lexer quotes nothing.
        rw [hcause] at hnear
        cases hnear
      · exact ⟨t, hanswer, hspan, hnear, hnext⟩

end Story

end LuaSource
