-- SUMMARY: A fault about a missing closer is about the innermost opener that is not closed.
import LuaSource.Proofs.Closing.Continued
import LuaSource.Proofs.Closing.ForksGrammar
import LuaSource.Proofs.Closing.TracksGrammar
import LuaSource.Proofs.Consumed
import LuaSource.Proofs.Grammar.Relayout

/-!
# Missing closers

A fault that tells of an opener tells of the innermost one that the tokens before the fault leave
unclosed. Where its closer has to come and is missing on the line of the opener, the fault says so
without telling of the opener.
-/

namespace LuaSource

/-- Why the closer `c` has to come behind some tokens, where `t` comes. -/
inductive Due (before : List Token) (t : Token) (c : Symbol) : Prop
  /-- It can come there, and a name cannot. So there can be no further item, as each may begin with
  a name. -/
  | noItem (hc : GoesOn before c) (hname : ¬GoesOn before .name)
  /-- It can come there to end a block, and the source ends. -/
  | atEnd (hc : GoesOn before c) (hblock : c ∈ Symbol.blockClosers) (ht : t.symbol = .eof)
  /-- What comes ends a block with a `return` that has no values. -/
  | behindReturn (hlast : (before.getLast?.map (·.symbol)) = some .kwReturn)
    (ht : t.symbol ∈ Symbol.blockEnds)

/-- Behind a parameter there is no name. -/
theorem chunk_parameters (depth : Nat) (value : Option String) (span : Span) (after : List Token)
    (eof : Token) :
    Grammar.chunk (Level.ofDepth (depth + 1))
      ⟨(Tokens.ofSource "function f(a b" false).tokens.take 4 ++ ⟨⟨.name, value⟩, span⟩ :: after,
        .ok eof, Position.start⟩ = .error ⟨.expected ")" (Lexeme.text ⟨.name, value⟩), span⟩ := by
  rfl

/-- Behind a parameter the list can be closed, and a name cannot come. -/
theorem due_parameters : Due ((Tokens.ofSource "function f(a b" false).tokens.take 4)
    ⟨⟨.name, some "b"⟩, ⟨⟨1, 14, 13⟩, ⟨1, 15, 14⟩⟩⟩ .rightParen := by
  refine .noItem ?_ ?_
  · have hsome : (parse "function f(a) end").toOption.isSome = true := by rfl
    obtain ⟨b, hparse⟩ : ∃ b, parse "function f(a) end" = .ok b := by
      cases h : parse "function f(a) end" with
      | ok b => exact ⟨b, rfl⟩
      | error e => rw [h] at hsome; cases hsome
    exact ⟨_, _, b, ⟨⟨.rightParen, none⟩, ⟨⟨1, 13, 12⟩, ⟨1, 14, 13⟩⟩⟩,
      [⟨⟨.kwEnd, none⟩, ⟨⟨1, 15, 14⟩, ⟨1, 18, 17⟩⟩⟩], hparse, rfl, by decide +kernel⟩
  · rintro ⟨source, options, b, ⟨⟨symbol, value⟩, span⟩, after, hparse, rfl, htokens⟩
    obtain ⟨eof, hending⟩ := exists_eof_of_parse hparse
    obtain ⟨w, hchunk⟩ := Tokens.exists_chunk (parse_eq_ok_iff.1 hparse)
    have hfault := chunk_parameters options.maxDepth value span after eof
    rw [Tokens.window, htokens, hending] at hchunk
    rcases Below.chunk_below (Nat.le_succ options.maxDepth) _ with heq | ⟨e, he, -⟩
    · cases (hchunk.symm.trans heq).trans hfault
    · cases hchunk.symm.trans he

theorem ParseFault.isTooDeep_of_isGrammatical {f : ParseFault} (h : f.isGrammatical = true) :
    f.isTooDeep = false := by
  cases f <;> first | rfl | cases h

/-! ## Where the tokens are -/

section Tokens

variable {p : Place} {ts : Tokens} {i j : Nat} {t u : Token}

/-- A token is on no line before the end of a token before it. -/
theorem Place.Yields.line_le_of_mem (h : p.Yields ts.tokens ts.ending)
    (hu : ts.stream[i]? = some (.ok u)) (ht : t ∈ ts.tokens.take i) :
    t.span.stop.line ≤ u.span.start.line := by
  rw [Tokens.getElem?_stream] at hu
  split at hu
  · obtain ⟨u', hu', heq⟩ := Option.map_eq_some_iff.1 hu
    cases heq
    obtain ⟨hlt, hget⟩ := List.getElem?_eq_some_iff.1 hu'
    have hpairwise := h.lines.1
    rw [← List.take_append_drop i ts.tokens, List.drop_eq_getElem_cons hlt, hget] at hpairwise
    exact (List.pairwise_append.1 hpairwise).2.2 t ht u List.mem_cons_self
  · split at hu
    · exact (h.line_le_eof (Option.some.inj hu)).2 t (List.mem_of_mem_take ht)
    · cases hu

/-- A token is on no line before a token before it, and on none before the last one of these. -/
theorem Place.Yields.line_lastStop (h : p.Yields ts.tokens ts.ending)
    (hu : ts.stream[i]? = some (.ok u)) (ht : t ∈ ts.tokens.take i) :
    t.span.start.line ≤ (lastStop (ts.tokens.take i)).line ∧
      (lastStop (ts.tokens.take i)).line ≤ u.span.start.line := by
  have hne : ts.tokens.take i ≠ [] := List.ne_nil_of_mem ht
  have hlast := List.getLast_mem hne
  have hline := h.line_le_stop
  rw [lastStop, List.getLast?_eq_some_getLast hne, Option.map_some, Option.getD_some]
  refine ⟨?_, h.line_le_of_mem hu hlast⟩
  have hpairwise : (ts.tokens.take i).Pairwise (·.span.stop.line ≤ ·.span.start.line) :=
    h.lines.1.sublist (List.take_sublist i ts.tokens)
  have hstop := hline t (List.mem_of_mem_take ht)
  rw [← List.dropLast_append_getLast hne] at ht hpairwise
  rcases List.mem_append.1 ht with ht | ht
  · have hle := (List.pairwise_append.1 hpairwise).2.2 t ht _ (List.mem_singleton_self _)
    exact (hstop.trans hle).trans (hline _ (List.mem_of_mem_take hlast))
  · rwa [← List.mem_singleton.1 ht]

/-- The token at which a parse ends is the one with the span of the fault. -/
theorem Place.Yields.eq_of_span (h : p.Yields ts.tokens ts.ending)
    (hu : ts.stream[i]? = some (.ok u)) (hspan : (ts.window.token j).span = u.span) :
    ts.window.token j = u ∧ min j ts.tokens.length = i := by
  have htoken := (Tokens.stream_eq_ok_iff.1 hu).2.2
  have hmin : ts.window.token j = ts.window.token (min j ts.tokens.length) := by
    rcases Nat.le_total j ts.tokens.length with hj | hj
    · rw [Nat.min_eq_left hj]
    · have hnone : ∀ {k}, ts.tokens.length ≤ k → ts.window.ahead[k]? = none := fun hk =>
        List.getElem?_eq_none hk
      rw [Nat.min_eq_right hj, Window.token, Window.token, hnone hj, hnone le_rfl]
  rw [hmin] at hspan ⊢
  rw [← htoken] at hspan hu ⊢
  have hindex := h.token_injective hu (Nat.min_le_right _ _) hspan
  exact ⟨by rw [hindex], hindex⟩

end Tokens

/-! ## Faults and openers -/

section Fault

variable {source : String} {options : ParseOptions} {e : ParseError} {i : Nat} {t u : Token}
  {c : Symbol}

/-- What the tokens before a fault leave open. -/
theorem blames_of_parse (h : parse source options = .error e) (hg : e.cause.isGrammatical = true) :
    ∃ i u, (Tokens.ofSource source options.skipShebang).stream[i]? = some (.ok u) ∧
      u.span = e.span ∧ (Reading.after ⟨[], .eof⟩
        ((Tokens.ofSource source options.skipShebang).tokens.take i)).Blames u e.cause := by
  obtain ⟨hreadable, hchunk⟩ := fault_of_parse h hg
  obtain ⟨k, w', hk, hadvance, hspan, hblames⟩ :=
    (Tracking.chunk_tracks options.maxDepth _ ⟨[], .eof⟩ (Tokens.proper_ofSource _ _)
      ⟨rfl, nofun⟩).fault hchunk hg
  have hcurrent : w'.current =
      (Tokens.ofSource source options.skipShebang).window.token k := by
    rw [← Window.token_zero, Window.token_of_advance hadvance, Nat.add_zero]
  refine ⟨k, w'.current, Tokens.stream_eq_ok_iff.2 ⟨hk, fun le hle => ?_, hcurrent.symm⟩,
    hspan.symm, hblames⟩
  exact Nat.lt_of_succ_lt (Window.lt_length_of_advance hreadable hadvance hle)

theorem blames_at (h : parse source options = .error e) (hg : e.cause.isGrammatical = true)
    (hu : (Tokens.ofSource source options.skipShebang).stream[i]? = some (.ok u))
    (hspan : u.span = e.span) :
    (Reading.after ⟨[], .eof⟩
      ((Tokens.ofSource source options.skipShebang).tokens.take i)).Blames u e.cause := by
  obtain ⟨i', u', hu', hspan', hblames⟩ := blames_of_parse h hg
  obtain rfl : i = i' := (Place.yields_ofPlace _).span_injective hu hu' (hspan.trans hspan'.symm)
  cases hu.symm.trans hu'
  exact hblames

theorem unclosed_eq (ts : List Token) :
    unclosed ts = (Reading.after ⟨[], .eof⟩ ts).openers.map Opener.token := by
  rw [Reading.openers_after, unclosed]

/-- The innermost opener is a token before the fault, and has a closer. -/
theorem opener_of_unclosed {o : Opener} {os : List Opener} {ts : List Token}
    (h : (Reading.after ⟨[], .eof⟩ ts).openers = o :: os) :
    (unclosed ts).head? = some o.token ∧ o.token ∈ ts ∧
      ∃ c, o.token.symbol.closer? = some c := by
  refine ⟨by rw [unclosed_eq, h]; rfl, ?_⟩
  rw [Reading.openers_after] at h
  rcases Opener.token_of_mem_foldl_read (h ▸ List.mem_cons_self) with ⟨hmem, hc⟩ | hnone
  · exact ⟨hmem, Option.isSome_iff_exists.1 hc⟩
  · cases hnone

theorem exists_opener {ts : List Token} (h : (unclosed ts).head? = some t) :
    ∃ o os, (Reading.after ⟨[], .eof⟩ ts).openers = o :: os ∧ o.token = t := by
  rw [unclosed_eq, List.head?_map] at h
  obtain ⟨o, ho, rfl⟩ := Option.map_eq_some_iff.1 h
  obtain ⟨os, hos⟩ := List.head?_eq_some_iff.1 ho
  exact ⟨o, os, hos, rfl⟩

/-- A fault that tells of an opener tells of the innermost one. -/
theorem unclosed_of_parse {closer opener near : String} {line : Nat}
    (h : parse source options = .error e) (hcause : e.cause = .unclosed closer opener line near) :
    ∃ i t u c, (Tokens.ofSource source options.skipShebang).stream[i]? = some (.ok u) ∧
      u.span = e.span ∧ u.text = near ∧
      t ∈ (Tokens.ofSource source options.skipShebang).tokens.take i ∧
      (unclosed ((Tokens.ofSource source options.skipShebang).tokens.take i)).head? = some t ∧
      t.symbol.closer? = some c ∧ c.spelling = closer ∧ t.symbol.spelling = opener ∧
      t.span.start.line = line ∧ line < u.span.start.line := by
  obtain ⟨i, u, hu, hspan, hblames⟩ := blames_of_parse h (by rw [hcause]; rfl)
  obtain ⟨o, os, hopeners, hfault⟩ := hblames.line (by rw [hcause]; rfl)
  obtain ⟨hhead, hmem, c, hc⟩ := opener_of_unclosed hopeners
  rw [hcause, Opener.fault, hc] at hfault
  split at hfault
  · cases hfault
  · next hline =>
    cases hfault
    obtain ⟨hstart, hstop⟩ := (Place.yields_ofPlace _).line_lastStop hu hmem
    exact ⟨i, o.token, u, c, hu, hspan, rfl, hmem, hhead, hc, rfl, rfl, rfl,
      Nat.lt_of_le_of_ne (hstart.trans hstop) (Ne.symm hline)⟩

/-! ## Closers that are missing -/

theorem Window.varies_of_take {w : Window} {k : Nat} {t eof : Token} {after : List Token}
    (hk : k ≤ w.ahead.length) (hready : Ready ⟨w.ahead.take k ++ t :: after, .ok eof, w.before⟩)
    (hstart : t.span.start = (w.token k).span.start) :
    w.Varies k t.symbol ⟨w.ahead.take k ++ t :: after, .ok eof, w.before⟩ := by
  have hlength : (w.ahead.take k).length = k := List.length_take_of_le hk
  have ht : Window.token ⟨w.ahead.take k ++ t :: after, .ok eof, w.before⟩ k = t := by
    rw [Window.token, List.getElem?_append_right (Nat.le_of_eq hlength), hlength, Nat.sub_self]
    rfl
  refine ⟨hready, rfl, fun j hj => ?_, by rw [ht], by rw [ht, hstart]⟩
  rw [Window.token, Window.token, List.getElem?_append_left (by omega),
    List.getElem?_take_of_lt hj, List.getElem?_eq_getElem (by omega)]
  rfl

theorem lastStop_take {ts : Tokens} {j : Nat} (hj : j < ts.tokens.length) :
    lastStop (ts.tokens.take (j + 1)) = (ts.window.token j).span.stop := by
  have hget : ts.window.ahead[j]? = some ts.tokens[j] := List.getElem?_eq_getElem hj
  rw [lastStop, List.getLast?_take, if_neg (Nat.succ_ne_zero j), Nat.add_sub_cancel,
    List.getElem?_eq_getElem hj, Window.token, hget]
  rfl

/-- A closer and a name that can both come in place of a token, at the same place. -/
theorem exists_fork {j : Nat}
    (hu : (Tokens.ofSource source options.skipShebang).stream[j + 1]? = some (.ok u))
    (hline : u.span.start.line =
      (lastStop ((Tokens.ofSource source options.skipShebang).tokens.take (j + 1))).line)
    (hc : GoesOn ((Tokens.ofSource source options.skipShebang).tokens.take (j + 1)) c)
    (hmem : c ∈ Symbol.closers) :
    ∃ v b, v.Ready ∧ v.letters ∈ Spelling.block b ∧ Everywhere.block grammatical b ∧
      Fork c (j + 1) (Tokens.ofSource source options.skipShebang).window v
        ((Tokens.ofSource source options.skipShebang).withName (j + 1) u.span.start) := by
  have hyields : Place.Yields (Place.ofSource source.toList options.skipShebang)
      (Tokens.ofSource source options.skipShebang).tokens
      (Tokens.ofSource source options.skipShebang).ending := Place.yields_ofPlace _
  have hproper := Tokens.proper_ofSource source options.skipShebang
  generalize Tokens.ofSource source options.skipShebang = ts at *
  obtain ⟨hle, -, htoken⟩ := Tokens.stream_eq_ok_iff.1 hu
  obtain ⟨t, after, eof, b, rfl, hstart, hready, hletters, hb⟩ := hc.exists_window hline
  refine ⟨_, b, hready, hletters, hb, hproper, hle, fun {w'} hadvance => ?_, fun k hk hspan => ?_,
    hmem, Window.varies_of_take (w := ts.window) hle hready (by rw [htoken, hstart]),
    Window.varies_of_take (w := ts.window) hle (ts.ready_withName hproper (j + 1) u.span.start)
      (by rw [htoken]; rfl)⟩
  · rw [Window.Joined, Window.before_of_advance hadvance, ← lastStop_take hle, ← hline,
      ← Window.token_zero, Window.token_of_advance hadvance, Nat.add_zero, htoken]
  · rw [← htoken] at hu
    exact hyields.token_injective hu hk hspan

/-- Where a closer can come and does not, on the line of the token before, the fault says that it is
missing, or a name can come there as well. -/
theorem missing_or_goesOn {j : Nat} (h : parse source options = .error e)
    (hg : e.cause.isGrammatical = true)
    (hu : (Tokens.ofSource source options.skipShebang).stream[j + 1]? = some (.ok u))
    (hspan : u.span = e.span)
    (hline : u.span.start.line =
      (lastStop ((Tokens.ofSource source options.skipShebang).tokens.take (j + 1))).line)
    (hc : GoesOn ((Tokens.ofSource source options.skipShebang).tokens.take (j + 1)) c)
    (hmem : c ∈ Symbol.closers) :
    e.cause.missing? = some c.spelling ∨ (u.symbol = .eof → c ∉ Symbol.blockClosers) ∧
      GoesOn ((Tokens.ofSource source options.skipShebang).tokens.take (j + 1)) .name := by
  obtain ⟨-, hchunk⟩ := fault_of_parse h hg
  obtain ⟨v, b, hready, hletters, hb, hfork⟩ := exists_fork hu hline hc hmem
  obtain ⟨hle, -, htoken⟩ := Tokens.stream_eq_ok_iff.1 hu
  -- Levels enough for the source, for the program with the closer and for the one with the name.
  obtain ⟨depth, hdepth, hneed, hlength⟩ : ∃ depth, options.maxDepth ≤ depth ∧
      Need.block b ≤ depth ∧ j + 1 + 1 < depth :=
    ⟨options.maxDepth + Need.block b + (j + 3), by omega, by omega, by omega⟩
  have hfault : Grammar.chunk (Level.ofDepth depth)
      (Tokens.ofSource source options.skipShebang).window = .error e.toLocated := by
    rcases Below.chunk_below hdepth (Tokens.ofSource source options.skipShebang).window with
      heq | ⟨e', he', hdeep⟩
    · rw [← heq, hchunk]
    · cases hchunk.symm.trans he'
      exact absurd hdeep (by simp [ParseFault.isTooDeep_of_isGrammatical hg])
  obtain ⟨b', v', hv, -⟩ := chunk_gives hready hletters hb hneed
  rcases ((Forking.chunk_forks depth).forksAt hfork b' v' hv).fault hfault hg
    (by rw [htoken]; exact hspan.symm) with hmissing | ⟨heof, hbeyond | ⟨-, -, hfalse, -⟩⟩
  · exact .inl hmissing
  · refine .inr ⟨htoken ▸ heof, ?_⟩
    have hyields : Place.Yields (Place.ofSource source.toList options.skipShebang)
        (Tokens.ofSource source options.skipShebang).tokens
        (Tokens.ofSource source options.skipShebang).ending := Place.yields_ofPlace _
    obtain ⟨v₁, b₁, hv₁, hword, hb₁⟩ := exists_completed_name (Tokens.proper_ofSource _ _)
      hyields.span_nonempty hle hlength hbeyond
    rw [Tokens.letters_withName hline, List.append_assoc] at hword
    exact goesOn_of_letters hle hv₁ hword hb₁
  · exact hfalse.elim

theorem near_of_parse (h : parse source options = .error e) (hg : e.cause.isGrammatical = true)
    (hu : (Tokens.ofSource source options.skipShebang).stream[i]? = some (.ok u))
    (hspan : u.span = e.span) : e.cause.near? = some u.text := by
  rcases Tokens.fault_of_parse_eq (parse_eq_error_iff.1 h).1 with
    ⟨le, -, heq⟩ | ⟨k, hnear, hspan', -⟩
  · have hcause : e.cause = .lexical le.cause := congrArg (·.cause) heq
    rw [hcause] at hg
    cases hg
  · have htoken := ((Place.yields_ofPlace _).eq_of_span hu (hspan'.symm.trans hspan.symm)).1
    rw [← htoken]
    exact hnear

theorem Opener.fault_of_line {o : Opener} (hc : o.token.symbol.closer? = some c)
    (hline : u.span.start.line = o.token.span.start.line) :
    o.fault u = .expected c.spelling u.text := by
  rw [Opener.fault, if_pos hline, hc]
  rfl

/-- On the line of the opener, a fault that says that the closer is missing does not tell of the
opener. -/
theorem Reading.Blames.expected {r : Reading} {f : ParseFault} {o : Opener} {os : List Opener}
    (h : r.Blames u f) (hopeners : r.openers = o :: os) (hc : o.token.symbol.closer? = some c)
    (hline : u.span.start.line = o.token.span.start.line)
    (hmissing : f.missing? = some c.spelling) (hnear : f.near? = some u.text) :
    f = .expected c.spelling u.text := by
  cases f with
  | expected s near =>
    cases hmissing
    cases hnear
    rfl
  | unclosed s opener line near =>
    obtain ⟨o', os', hopeners', hfault⟩ := h.line rfl
    cases hopeners.symm.trans hopeners'
    rw [hfault, Opener.fault_of_line hc hline]
  | _ => cases hmissing

/-- Where the closer of the innermost opener has to come on its line, the fault says that it is
missing. -/
theorem expected_of_due (h : parse source options = .error e) (hg : e.cause.isGrammatical = true)
    (hu : (Tokens.ofSource source options.skipShebang).stream[i]? = some (.ok u))
    (hspan : u.span = e.span)
    (ht : (unclosed ((Tokens.ofSource source options.skipShebang).tokens.take i)).head? = some t)
    (hc : t.symbol.closer? = some c) (hline : u.span.start.line = t.span.start.line)
    (hdue : Due ((Tokens.ofSource source options.skipShebang).tokens.take i) u c) :
    e.cause = .expected c.spelling u.text := by
  have hblames := blames_at h hg hu hspan
  obtain ⟨o, os, hopeners, rfl⟩ := exists_opener ht
  have hmem := (opener_of_unclosed hopeners).2.1
  have hlast : u.span.start.line =
      (lastStop ((Tokens.ofSource source options.skipShebang).tokens.take i)).line := by
    obtain ⟨hle, hge⟩ := (Place.yields_ofPlace _).line_lastStop hu hmem
    exact Nat.le_antisymm (hline.trans_le hle) hge
  have hmissing : GoesOn ((Tokens.ofSource source options.skipShebang).tokens.take i) c →
      (GoesOn ((Tokens.ofSource source options.skipShebang).tokens.take i) .name →
        u.symbol = .eof ∧ c ∈ Symbol.blockClosers) → e.cause = .expected c.spelling u.text := by
    intro hgoes hname
    obtain ⟨j, rfl⟩ : ∃ j, i = j + 1 := Nat.exists_eq_succ_of_ne_zero fun hzero => by
      rw [hzero] at hmem
      cases hmem
    rcases missing_or_goesOn h hg hu hspan hlast hgoes (Symbol.mem_closers_of_closer? hc) with
      hmissing | ⟨heof, hgoes'⟩
    · exact hblames.expected hopeners hc hline hmissing (near_of_parse h hg hu hspan)
    · obtain ⟨hsymbol, hblock⟩ := hname hgoes'
      exact absurd hblock (heof hsymbol)
  cases hdue with
  | noItem hgoes hname => exact hmissing hgoes fun h => absurd h hname
  | atEnd hgoes hblock hsymbol => exact hmissing hgoes fun _ => ⟨hsymbol, hblock⟩
  | behindReturn hreturn hend =>
    rw [← Opener.fault_of_line hc hline]
    refine hblames.closer ?_ hend o os hopeners
    rw [Reading.last_after, hreturn]
    rfl

/-- A fault that tells of an opener tells of the innermost one that the tokens before the fault
leave unclosed: of its closer, of its symbol and of its line, which is before the line of the fault.
Where the closer of the innermost opener has to come, and what comes in place of it is on the line
of the opener, the fault quotes it and says that the closer was expected. -/
theorem fault_of_missing_closer (h : parse source options = .error e) :
    (∀ closer opener line near, e.cause = .unclosed closer opener line near →
      ∃ i t u c, (Tokens.ofSource source options.skipShebang).stream[i]? = some (.ok u) ∧
        u.span = e.span ∧ u.text = near ∧
        t ∈ (Tokens.ofSource source options.skipShebang).tokens.take i ∧
        (unclosed ((Tokens.ofSource source options.skipShebang).tokens.take i)).head? = some t ∧
        t.symbol.closer? = some c ∧ c.spelling = closer ∧ t.symbol.spelling = opener ∧
        t.span.start.line = line ∧ line < u.span.start.line) ∧
      ∀ i t u c, e.cause.isGrammatical = true →
        (Tokens.ofSource source options.skipShebang).stream[i]? = some (.ok u) →
        u.span = e.span →
        (unclosed ((Tokens.ofSource source options.skipShebang).tokens.take i)).head? = some t →
        t.symbol.closer? = some c → u.span.start.line = t.span.start.line →
        Due ((Tokens.ofSource source options.skipShebang).tokens.take i) u c →
        e.cause = .expected c.spelling u.text :=
  ⟨fun _ _ _ _ => unclosed_of_parse h, fun _ _ _ _ => expected_of_due h⟩

end Fault

theorem fault_of_missing_closer_function :
    parse "function f(a)\n" =
        .error ⟨⟨.unclosed "end" "function" 1 "<eof>", Span.empty ⟨2, 1, 14⟩⟩, "<unknown>"⟩ ∧
      (∃ i t u c, (Tokens.ofSource "function f(a)\n" false).stream[i]? = some (.ok u) ∧
        u.span = Span.empty ⟨2, 1, 14⟩ ∧ u.text = "<eof>" ∧
        t ∈ (Tokens.ofSource "function f(a)\n" false).tokens.take i ∧
        (unclosed ((Tokens.ofSource "function f(a)\n" false).tokens.take i)).head? = some t ∧
        t.symbol.closer? = some c ∧ c.spelling = "end" ∧ t.symbol.spelling = "function" ∧
        t.span.start.line = 1 ∧ 1 < u.span.start.line) ∧
      ∃ e, parse "function f(a b" = .error e ∧ e.cause = .expected ")" "b" := by
  have hfunction : parse "function f(a)\n" =
      .error ⟨⟨.unclosed "end" "function" 1 "<eof>", Span.empty ⟨2, 1, 14⟩⟩, "<unknown>"⟩ := by rfl
  have hparameters : parse "function f(a b" =
      .error ⟨⟨.expected ")" "b", ⟨⟨1, 14, 13⟩, ⟨1, 15, 14⟩⟩⟩, "<unknown>"⟩ := by rfl
  exact ⟨hfunction, (fault_of_missing_closer hfunction).1 _ _ _ _ rfl, _, hparameters,
    (fault_of_missing_closer hparameters).2 4 ⟨⟨.leftParen, none⟩, ⟨⟨1, 11, 10⟩, ⟨1, 12, 11⟩⟩⟩
      ⟨⟨.name, some "b"⟩, ⟨⟨1, 14, 13⟩, ⟨1, 15, 14⟩⟩⟩ .rightParen rfl (by decide +kernel) rfl
      (by decide +kernel) rfl rfl due_parameters⟩

end LuaSource
