-- SUMMARY: A grammatical fault is about the first token at which a source is no longer the beginning of a program.
import LuaSource.Proofs.Accept
import LuaSource.Proofs.Format.Resumed
import LuaSource.Proofs.Grammar.LocalGrammar

/-!
# Where faults are found

A fault of the grammar names a token. The tokens up to this one decide that there is a fault, and
the tokens before it could have gone on to a program.
-/

namespace LuaSource

/-! ## Streams -/

namespace Tokens

variable {ts us : Tokens} {k : Nat} {t : Token} {e : Located LexError}

theorem getElem?_stream (ts : Tokens) (k : Nat) :
    ts.stream[k]? =
      if k < ts.tokens.length then ts.tokens[k]?.map .ok
      else if k = ts.tokens.length then some ts.ending else none := by
  rw [stream]
  split
  · next hlt =>
    rw [List.getElem?_append_left (by simpa using hlt), List.getElem?_map]
  · next hge =>
    rw [List.getElem?_append_right (by simpa using hge), List.length_map]
    split
    · next heq => rw [heq, Nat.sub_self, List.getElem?_cons_zero]
    · next hne =>
      obtain ⟨d, hd⟩ : ∃ d, k - ts.tokens.length = d + 1 := ⟨k - ts.tokens.length - 1, by omega⟩
      rw [hd, List.getElem?_cons_succ, List.getElem?_nil]

/-- The token `k` places on in a stream is the one that a parser has before it after `k` steps. -/
theorem stream_eq_ok_iff :
    ts.stream[k]? = some (.ok t) ↔
      k ≤ ts.tokens.length ∧ (∀ e, ts.ending = .error e → k < ts.tokens.length) ∧
        ts.window.token k = t := by
  obtain ⟨tokens, ending⟩ := ts
  rw [getElem?_stream, Window.token, window]
  dsimp only
  split
  · next hlt =>
    rw [List.getElem?_eq_getElem hlt]
    simp [hlt, Nat.le_of_lt hlt]
  · next hge =>
    rw [List.getElem?_eq_none (Nat.le_of_not_lt hge), Option.getD_none]
    split
    · next heq =>
      cases ending with
      | error e => simp [hge]
      | ok eof => simp [Window.endToken, heq]
    · next hne =>
      have hgt : ¬ k ≤ tokens.length := by omega
      simp [hgt]

theorem stream_eq_error_iff :
    ts.stream[k]? = some (.error e) ↔ ts.ending = .error e ∧ k = ts.tokens.length := by
  rw [getElem?_stream]
  split
  · next hlt =>
    have hne : k ≠ ts.tokens.length := Nat.ne_of_lt hlt
    rw [List.getElem?_eq_getElem hlt]
    simp [hne]
  · split
    · next heq => simp [heq]
    · next hne => simp [hne]

theorem stream_of_le {j : Nat} (hj : j ≤ k) (h : ts.stream[k]? = some (.ok t)) :
    ts.stream[j]? = some (.ok (ts.window.token j)) := by
  obtain ⟨hk, hending, -⟩ := stream_eq_ok_iff.1 h
  exact stream_eq_ok_iff.2
    ⟨Nat.le_trans hj hk, fun e he => Nat.lt_of_le_of_lt hj (hending e he), rfl⟩

theorem agree_of_take (hus : us.window.Proper)
    (h : us.stream.take (k + 1) = ts.stream.take (k + 1)) (ht : ts.stream[k]? = some (.ok t)) :
    ts.window.Agree k us.window := by
  refine ⟨rfl, fun j hj => ?_, hus⟩
  have hstream : us.stream[j]? = ts.stream[j]? := by
    have hj' := congrArg (·[j]?) h
    rwa [List.getElem?_take_of_lt (Nat.lt_succ_of_le hj),
      List.getElem?_take_of_lt (Nat.lt_succ_of_le hj)] at hj'
  rw [stream_of_le hj ht] at hstream
  exact (stream_eq_ok_iff.1 hstream).2.2.symm

end Tokens

namespace Place

variable {p : Place}

/-- The tokens of a source have spans of their own. -/
theorem Yields.span_injective {ts : Tokens} (h : p.Yields ts.tokens ts.ending) {j k : Nat}
    {t u : Token} (ht : ts.stream[j]? = some (.ok t)) (hu : ts.stream[k]? = some (.ok u))
    (hspan : t.span = u.span) : j = k := by
  have hread : ∀ {i : Nat} {v : Token}, ts.stream[i]? = some (.ok v) →
      (ts.tokens ++ ts.ending.toOption.toList)[i]? = some v := by
    intro i v hv
    rw [Tokens.getElem?_stream] at hv
    split at hv
    · next hlt =>
      obtain ⟨v', hv', heq⟩ := Option.map_eq_some_iff.1 hv
      cases heq
      rw [List.getElem?_append_left hlt, hv']
    · split at hv
      · next heq =>
        injection hv with hv
        rw [List.getElem?_append_right (Nat.le_of_eq heq.symm), heq, Nat.sub_self, hv]
        rfl
      · cases hv
  have hlt : ∀ {i i' : Nat} {v v' : Token}, ts.stream[i]? = some (.ok v) →
      ts.stream[i']? = some (.ok v') → i < i' → v.span.start.offset < v'.span.start.offset := by
    intro i i' v v' hv hv' hii'
    obtain ⟨hi, hv⟩ := List.getElem?_eq_some_iff.1 (hread hv)
    obtain ⟨hi', hv'⟩ := List.getElem?_eq_some_iff.1 (hread hv')
    have hsorted := List.pairwise_iff_getElem.1 h.sorted.1 i i' hi hi' hii'
    rwa [hv, hv'] at hsorted
  rcases Nat.lt_trichotomy j k with hjk | hjk | hjk
  · have hoffset := hlt ht hu hjk
    rw [hspan] at hoffset
    exact absurd hoffset (Nat.lt_irrefl _)
  · exact hjk
  · have hoffset := hlt hu ht hjk
    rw [hspan] at hoffset
    exact absurd hoffset (Nat.lt_irrefl _)

/-- Only the end of a source takes up no text. -/
theorem Yields.span_nonempty {ts : List Token} {r : Except (Located LexError) Token}
    (h : p.Yields ts r) : ∀ t ∈ ts, t.span.start ≠ t.span.stop := by
  induction h with
  | ends => exact nofun
  | @token p q t ts r hread ht _ ih =>
    refine List.forall_mem_cons.2 ⟨fun heq => ?_, ih⟩
    obtain ⟨blanks, word, -, hword, -, hstop, -⟩ := readToken_cut hread ht
    have hlength := t.span.start.offset_le_after word
    have hpos := List.length_pos_iff.2 hword
    rw [← hstop, ← heq] at hlength
    omega

/-- What stands in for the end of a source takes up no text, other than the tokens before it. So a
window on all tokens shows none of those in a stream at another place. -/
theorem Yields.token_injective {ts : Tokens} (h : p.Yields ts.tokens ts.ending) {i j : Nat}
    (hi : ts.stream[i]? = some (.ok (ts.window.token i))) (hj : j ≤ ts.tokens.length)
    (hspan : (ts.window.token j).span = (ts.window.token i).span) : j = i := by
  by_cases hread : ∀ e, ts.ending = .error e → j < ts.tokens.length
  · exact h.span_injective (Tokens.stream_eq_ok_iff.2 ⟨hj, hread, rfl⟩) hi hspan
  · obtain ⟨e, he⟩ := not_forall.1 hread
    obtain ⟨hending, hge⟩ := Classical.not_imp.1 he
    have hlt := (Tokens.stream_eq_ok_iff.1 hi).2.1 e hending
    have hempty : (ts.window.token j).span.start = (ts.window.token j).span.stop := by
      have hnone : ts.window.ahead[j]? = none := List.getElem?_eq_none (Nat.le_of_not_lt hge)
      have hending' : ts.window.ending = .error e := hending
      rw [Window.token, hnone, Option.getD_none, Window.endToken, hending']
      rfl
    have hmem : ts.window.token i ∈ ts.tokens := by
      have hsome : ts.window.ahead[i]? = some ts.tokens[i] := List.getElem?_eq_getElem hlt
      rw [Window.token, hsome]
      exact List.getElem_mem hlt
    rw [hspan] at hempty
    exact absurd hempty (h.span_nonempty _ hmem)

end Place

theorem Window.Advance.current {w w' : Window} {u : List Letter} (h : w.Advance u w') :
    w'.current = w.token u.length := by
  have hend : w'.endToken = w.endToken := by
    rw [Window.endToken, Window.endToken, h.ending]
  rw [← Window.token_zero, Window.token, Window.token, h.ahead, hend, List.getElem?_drop,
    Nat.add_zero]

/-! ## Faults -/

section Fault

variable {source : String} {options : ParseOptions} {e : ParseError}

theorem fault_of_parse (h : parse source options = .error e)
    (hg : e.cause.isGrammatical = true) :
    (Tokens.ofSource source options.skipShebang).window.errorWithin? 2 = none ∧
      Grammar.chunk (Level.ofDepth options.maxDepth)
        (Tokens.ofSource source options.skipShebang).window = .error e.toLocated := by
  obtain ⟨hparse, -⟩ := parse_eq_error_iff.1 h
  rw [Tokens.parse_eq] at hparse
  split at hparse
  · injection hparse with heq
    rw [← heq] at hg
    cases hg
  · next hreadable =>
    refine ⟨hreadable, ?_⟩
    cases hchunk : Grammar.chunk (Level.ofDepth options.maxDepth)
        (Tokens.ofSource source options.skipShebang).window with
    | error fault =>
      rw [hchunk] at hparse
      cases hparse
      rfl
    | ok r =>
      rw [hchunk] at hparse
      cases hparse

/-- A fault is decided by the tokens up to the one that it is about: where the tokens are the same
up to this one, there is the same fault, as long as the next one can be read. -/
theorem exists_offending {ts : Tokens} {depth : Nat} {fault : Located ParseFault}
    (hproper : ts.window.Proper) (hreadable : ts.window.errorWithin? 2 = none)
    (h : Grammar.chunk (Level.ofDepth depth) ts.window = .error fault)
    (hg : fault.cause.isGrammatical = true) :
    ∃ i, ts.stream[i]? = some (.ok (ts.window.token i)) ∧ fault.span = (ts.window.token i).span ∧
      ∀ us : Tokens, us.window.Proper → us.stream.take (i + 1) = ts.stream.take (i + 1) →
        (∀ e, us.stream[i + 1]? = some (.error e) → us.parse depth = .error e.toFault) ∧
        ((∀ e, us.stream[i + 1]? ≠ some (.error e)) → us.parse depth = .error fault) := by
  obtain ⟨i, -, hi, hspan, hlocal⟩ := (Local.chunk_local depth _ hproper).fault h hg
  have htwo : ts.window.errorWithin? (i + 2) = none := by
    cases herror : ts.window.errorWithin? (i + 2) with
    | none => rfl
    | some e =>
      have hself := hlocal ts.window (.refl hproper)
      rw [h, Window.advance_of_some hreadable herror] at hself
      cases hself
      cases hg
  have hstream : ts.stream[i]? = some (.ok (ts.window.token i)) := by
    refine Tokens.stream_eq_ok_iff.2 ⟨hi, fun e he => ?_, rfl⟩
    have hlt : i + 1 < ts.tokens.length := Window.errorWithin?_eq_none_iff.1 htwo e he
    omega
  refine ⟨i, hstream, hspan, fun us hus htake => ⟨fun e he => ?_, fun hnext => ?_⟩⟩
  · obtain ⟨hending, hlength⟩ := Tokens.stream_eq_error_iff.1 he
    have hsome : us.window.errorWithin? (i + 2) = some e :=
      Window.errorWithin?_eq_some_iff.2 ⟨hending, Nat.le_of_eq hlength.symm⟩
    rw [Tokens.parse_eq]
    cases hfirst : us.window.errorWithin? 2 with
    | some e' =>
      have hending' : us.ending = .error e' := (Window.errorWithin?_eq_some_iff.1 hfirst).1
      rw [hending] at hending'
      cases hending'
      rfl
    | none =>
      dsimp only
      rw [hlocal _ (Tokens.agree_of_take hus htake hstream), Window.advance_of_some hfirst hsome]
      rfl
  · have hi' : us.stream[i]? = some (.ok (ts.window.token i)) := by
      have hget := congrArg (·[i]?) htake
      rwa [List.getElem?_take_of_lt (Nat.lt_succ_self i),
        List.getElem?_take_of_lt (Nat.lt_succ_self i), hstream] at hget
    have hlength : ∀ e, us.ending = .error e → i + 1 < us.tokens.length := by
      intro e he
      have hlt := (Tokens.stream_eq_ok_iff.1 hi').2.1 e he
      have hne : i + 1 ≠ us.tokens.length := fun heq =>
        hnext e (Tokens.stream_eq_error_iff.2 ⟨he, heq⟩)
      omega
    have hnone : us.window.errorWithin? (i + 2) = none :=
      Window.errorWithin?_eq_none_iff.2 hlength
    have hfirst : us.window.errorWithin? 2 = none :=
      Window.errorWithin?_eq_none_iff.2 fun e he => by
        have hlt : i + 1 < us.tokens.length := hlength e he
        show 1 < us.tokens.length
        omega
    obtain ⟨w, hw⟩ := Window.advance_of_none hnone
    rw [Tokens.parse_eq, hfirst]
    dsimp only
    rw [hlocal _ (Tokens.agree_of_take hus htake hstream), hw]
    rfl

/-- The tokens before the one that a fault is about are the beginning of a program. -/
theorem exists_completion {skipShebang : Bool} {depth : Nat} {fault : Located ParseFault}
    (h : Grammar.chunk (Level.ofDepth depth) (Tokens.ofSource source skipShebang).window =
      .error fault)
    (hg : fault.cause.isGrammatical = true) {i : Nat}
    (hi : (Tokens.ofSource source skipShebang).stream[i]? =
      some (.ok ((Tokens.ofSource source skipShebang).window.token i)))
    (hspan : fault.span = ((Tokens.ofSource source skipShebang).window.token i).span) :
    ∃ source' eof b, (Tokens.ofSource source' skipShebang).ending = .ok eof ∧
      (Tokens.ofSource source' skipShebang).stream.take i =
        (Tokens.ofSource source skipShebang).stream.take i ∧
      (Tokens.ofSource source' skipShebang).letters ∈ Spelling.block b ∧
      Everywhere.block grammatical b := by
  obtain ⟨b, w, ⟨u, v, hadvance, hv, hword⟩, hb, hspan'⟩ :=
    (chunk_meets (Tokens.proper_ofSource source skipShebang)).fault h hg
  have hyields : Place.Yields (Place.ofSource source.toList skipShebang)
      (Tokens.ofSource source skipShebang).tokens (Tokens.ofSource source skipShebang).ending :=
    Place.yields_ofPlace _
  have hlength : u.length ≤ (Tokens.ofSource source skipShebang).tokens.length := by
    have hsum := hadvance.length
    show u.length ≤ (Tokens.ofSource source skipShebang).window.ahead.length
    omega
  have htake : (Tokens.ofSource source skipShebang).letters.take u.length = u := by
    rw [← Tokens.letters_window, hadvance.letters, List.take_left]
  have hindex : u.length = i := by
    rw [hadvance.current] at hspan'
    exact hyields.token_injective hi hlength (hspan'.symm.trans hspan)
  obtain ⟨source', eof, hending, hstream, hletters⟩ := exists_resumed hlength hv (by
    rw [htake]
    intro hhash
    have hfollows := begins_block b _ hword
    rw [hhash] at hfollows
    cases hfollows)
  rw [htake] at hletters
  exact ⟨source', eof, b, hending, hindex ▸ hstream, hletters.symm ▸ hword,
    Everywhere.mono_block sound_implies_grammatical b hb⟩

/-- A fault of the grammar is about the first token with which a source is not the beginning of a
program any more. Every source that has the same tokens up to this one has the same fault, unless
its next token cannot be read. And some source that has the same tokens before this one is a
program, if there are levels enough. -/
theorem fault_at_first_offending (h : parse source options = .error e)
    (hg : e.cause.isGrammatical = true) :
    ∃ i t, (Tokens.ofSource source options.skipShebang).stream[i]? = some (.ok t) ∧
      t.span = e.span ∧
      (∀ j u, (Tokens.ofSource source options.skipShebang).stream[j]? = some (.ok u) →
        u.span = e.span → j = i) ∧
      (∀ source', (Tokens.ofSource source' options.skipShebang).stream.take (i + 1) =
          (Tokens.ofSource source options.skipShebang).stream.take (i + 1) →
        (∀ le, (Tokens.ofSource source' options.skipShebang).stream[i + 1]? = some (.error le) →
          parse source' options = .error ⟨le.toFault, options.chunkName⟩) ∧
        ((∀ le, (Tokens.ofSource source' options.skipShebang).stream[i + 1]? ≠ some (.error le)) →
          parse source' options = .error e)) ∧
      ∃ source' depth,
        (Tokens.ofSource source' options.skipShebang).stream.take i =
          (Tokens.ofSource source options.skipShebang).stream.take i ∧
        ∀ n, depth ≤ n → ∃ b, parse source' { options with maxDepth := n } = .ok b := by
  obtain ⟨hreadable, hchunk⟩ := fault_of_parse h hg
  have hname := (parse_eq_error_iff.1 h).2
  obtain ⟨i, hi, hspan, hsame⟩ :=
    exists_offending (Tokens.proper_ofSource source options.skipShebang) hreadable hchunk hg
  obtain ⟨completed, eof, b, hending, htake, hletters, hb⟩ :=
    exists_completion hchunk hg hi hspan
  have hyields : Place.Yields (Place.ofSource source.toList options.skipShebang)
      (Tokens.ofSource source options.skipShebang).tokens
      (Tokens.ofSource source options.skipShebang).ending := Place.yields_ofPlace _
  refine ⟨i, _, hi, hspan.symm, fun j u hu huspan => ?_, fun source' htake' => ?_,
    completed, Need.block b, htake, fun n hn => ?_⟩
  · exact hyields.span_injective hu hi (huspan.trans hspan)
  · obtain ⟨hlexical, hfault⟩ := hsame _ (Tokens.proper_ofSource source' _) htake'
    exact ⟨fun le hle => parse_eq_error_iff.2 ⟨hlexical le hle, rfl⟩,
      fun hle => parse_eq_error_iff.2 ⟨hfault hle, hname⟩⟩
  · obtain ⟨b', hb', -⟩ := @parse_complete completed { options with maxDepth := n } b eof hending
      hletters hb hn
    exact ⟨b', hb'⟩

theorem fault_at_first_offending_name :
    parse "x" = .error ⟨⟨.expected "=" "<eof>", Span.empty ⟨1, 2, 1⟩⟩, "<unknown>"⟩ ∧
      ∃ source' depth,
        (Tokens.ofSource source' false).stream.take 1 =
          (Tokens.ofSource "x" false).stream.take 1 ∧
        ∀ n, depth ≤ n → ∃ b, parse source' { maxDepth := n } = .ok b := by
  have hparse : parse "x" = .error ⟨⟨.expected "=" "<eof>", Span.empty ⟨1, 2, 1⟩⟩, "<unknown>"⟩ := by
    rfl
  refine ⟨hparse, ?_⟩
  obtain ⟨i, t, -, -, hunique, -, hcompleted⟩ := fault_at_first_offending hparse rfl
  obtain rfl : 1 = i := hunique 1 (Token.eof ⟨1, 2, 1⟩) rfl rfl
  exact hcompleted

end Fault

end LuaSource
