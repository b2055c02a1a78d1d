-- SUMMARY: The tokens that calls of the lexer answer with, and what stands between them, make up the source.
import LuaSource.Proofs.Lexer.Calls

/-!
# Covering a source

Calls of the lexer come to the end of the source or to an error. The tokens until then take up the
source one behind the other, with blanks and comments between them.
-/

namespace LuaSource

/-- From an offset on, a text is made up of tokens with filler before each. Behind the last one it
is filler, up to the end of the source, or it goes on with what cannot be read. -/
inductive Tiles (ending : Except (Located LexError) Token) : Nat → List Char → List Token → Prop
  | ends {offset : Nat} {cs : List Char} {eof : Token} (hending : ending = .ok eof)
      (hfiller : Filler [] cs) (hempty : eof.span.stop = eof.span.start)
      (hstart : eof.span.start.offset = offset + String.utf8Len cs) : Tiles ending offset cs []
  | fails {offset : Nat} {cs : List Char} {e : Located LexError} (hending : ending = .error e) :
      Tiles ending offset cs []
  | token {offset : Nat} {filler word rest : List Char} {t : Token} {ts : List Token}
      (hfiller : Filler (word ++ rest) filler) (hword : word ≠ [])
      (hstart : t.span.start.offset = offset + String.utf8Len filler)
      (hstop : t.span.stop.offset = t.span.start.offset + String.utf8Len word)
      (hrest : Tiles ending t.span.stop.offset rest ts) :
      Tiles ending offset (filler ++ (word ++ rest)) (t :: ts)

namespace Tiles

variable {ending : Except (Located LexError) Token} {offset : Nat} {cs : List Char}
  {ts : List Token}

theorem length_le (h : Tiles ending offset cs ts) : ts.length ≤ cs.length := by
  induction h with
  | ends => exact Nat.zero_le _
  | fails => exact Nat.zero_le _
  | token _ hword _ _ _ ih =>
    have hpos := List.length_pos_iff.2 hword
    simp only [List.length_cons, List.length_append]
    omega

theorem nonempty (h : Tiles ending offset cs ts) :
    ∀ t ∈ ts, offset ≤ t.span.start.offset ∧ t.span.start.offset < t.span.stop.offset := by
  induction h with
  | ends => exact nofun
  | fails => exact nofun
  | @token offset filler word rest t ts _ hword hstart hstop _ ih =>
    have hpos : 0 < String.utf8Len word :=
      Nat.pos_of_ne_zero fun hzero => hword (String.utf8Len_eq_zero.1 hzero)
    refine List.forall_mem_cons.2 ⟨⟨by omega, by omega⟩, fun u hu => ?_⟩
    have hu := ih u hu
    exact ⟨by omega, hu.2⟩

theorem ordered (h : Tiles ending offset cs ts) :
    ts.Pairwise fun t u => t.span.stop.offset ≤ u.span.start.offset := by
  induction h with
  | ends => exact .nil
  | fails => exact .nil
  | token _ _ _ _ hrest ih => exact .cons (fun u hu => (hrest.nonempty u hu).1) ih

theorem eof {t : Token} (h : Tiles ending offset cs ts) (ht : ending = .ok t) :
    t.span.start = t.span.stop ∧ t.span.start.offset = offset + String.utf8Len cs := by
  induction h with
  | ends hending _ hempty hstart =>
    rw [hending] at ht
    cases ht
    exact ⟨hempty.symm, hstart⟩
  | fails hending =>
    rw [hending] at ht
    cases ht
  | token _ _ hstart hstop _ ih =>
    refine ⟨ih.1, ?_⟩
    rw [ih.2, hstop, hstart, String.utf8Len_append, String.utf8Len_append]
    omega

end Tiles

/-! ## The end of a source -/

namespace Place

variable {p q : Place} {t : Token} {ts : List Token} {r : Except (Located LexError) Token}

/-- The end is read behind filler, and there again and again. -/
theorem readToken_eof (h : p.readToken = (.ok t, q)) (ht : t.symbol = .eof) :
    q.rest = [] ∧ Filler [] p.rest ∧ t.span = Span.empty (p.position.after p.rest) ∧
      q.readToken = (.ok t, q) := by
  obtain ⟨blanks, rest, n, hrest, htrivia, hlexeme, -⟩ := readToken_eq_ok h
  cases rest with
  | cons c cs => exact absurd ht (Lexeme.sound_read hlexeme).2
  | nil =>
    rw [List.append_nil] at hrest htrivia
    have hread := @readToken_ok blanks [] [] p.position { symbol := .eof }
      (by simpa using htrivia) rfl
    have hp : p = ⟨blanks ++ ([] ++ []), p.position⟩ := by
      rw [List.append_nil, List.append_nil, ← hrest]
    rw [← hp, h] at hread
    injection hread with htoken hplace
    injection htoken with htoken
    have hfiller := Trivia.filler_read htrivia
    rw [List.drop_length, List.take_length] at hfiller
    subst htoken hplace hrest
    exact ⟨rfl, hfiller, rfl, rfl⟩

/-! ## Tiles -/

/-- What a token is read behind is filler. -/
theorem readToken_filler {blanks rest : List Char} (h : p.readToken = (.ok t, q))
    (hrest : p.rest = blanks ++ rest) (hstart : t.span.start = p.position.after blanks) :
    Filler rest blanks := by
  obtain ⟨blanks', rest', n, hrest', htrivia, -, hstart', -⟩ := readToken_eq_ok h
  have hlength : String.utf8Len blanks = String.utf8Len blanks' := by
    have hoffset := congrArg Position.offset (hstart.symm.trans hstart')
    rw [Position.offset_after, Position.offset_after] at hoffset
    exact Nat.add_left_cancel hoffset
  have hblanks : blanks = blanks' ∧ rest = rest' := by
    rcases List.append_eq_append_iff.1 (hrest.symm.trans hrest') with ⟨cs, rfl, rfl⟩ | ⟨cs, rfl, rfl⟩
    · rw [String.utf8Len_append, Nat.left_eq_add, String.utf8Len_eq_zero] at hlength
      simp [hlength]
    · rw [String.utf8Len_append, Nat.add_eq_left, String.utf8Len_eq_zero] at hlength
      simp [hlength]
  obtain ⟨rfl, rfl⟩ := hblanks
  have hfiller := Trivia.filler_read htrivia
  rwa [List.drop_left, List.take_left] at hfiller

theorem Yields.tiles (h : p.Yields ts r) : Tiles r p.position.offset p.rest ts := by
  induction h with
  | @ends p q r hread hr =>
    cases r with
    | error e => exact .fails rfl
    | ok eof =>
      obtain ⟨-, hfiller, hspan, -⟩ := readToken_eof hread (hr eof rfl)
      refine .ends rfl hfiller ?_ ?_
      · rw [hspan]
        rfl
      · rw [hspan]
        exact Position.offset_after _ _
  | @token p q t ts r hread ht _ ih =>
    obtain ⟨blanks, word, hrest, hword, hstart, hstop, hposition, -⟩ := readToken_cut hread ht
    rw [hposition] at ih
    rw [hrest]
    refine .token (readToken_filler hread hrest hstart) hword ?_ ?_ ih
    · rw [hstart, Position.offset_after]
    · rw [hstop, Position.offset_after]

/-- A source may begin with a mark of byte order, which is no token and no filler. -/
theorem Yields.exists_tiles {cs : List Char} (h : (ofText cs).Yields ts r) :
    ∃ mark rest, cs = mark ++ rest ∧ (mark = [] ∨ mark = ['\uFEFF']) ∧
      Tiles r (String.utf8Len mark) rest ts := by
  have htiles := h.tiles
  cases cs with
  | nil => exact ⟨[], [], rfl, .inl rfl, htiles⟩
  | cons c cs =>
    rw [ofText] at htiles
    split at htiles
    · next hc =>
      refine ⟨[c], cs, rfl, .inr (by rw [hc]), ?_⟩
      rw [String.utf8Len_cons, String.utf8Len_nil, Nat.zero_add]
      exact htiles
    · exact ⟨[], c :: cs, rfl, .inl rfl, htiles⟩

end Place

theorem length_le_utf8Len (cs : List Char) : cs.length ≤ String.utf8Len cs := by
  have hoffset := Position.start.offset_le_after cs
  rw [Position.offset_after] at hoffset
  exact Nat.le_of_add_le_add_left hoffset

/-! ## Calls -/

namespace Lexer

variable {l : Lexer} {p : Place} {ts : List Token} {r : Except (Located LexError) Token}

theorem At.eof {t : Token} (h : l.At p) (hp : p.readToken = (.ok t, p)) (n : Nat) :
    l.answer n = .ok t := by
  induction n generalizing l with
  | zero => rw [answer_zero, h.next.1, hp]
  | succ n ih =>
    have hnext := h.next.2
    rw [hp] at hnext
    exact ih hnext

/-- Calls answer with the tokens one by one, and with the end for ever. -/
theorem At.yields (h : l.At p) (hy : p.Yields ts r) :
    (∀ n (hn : n < ts.length), l.answer n = .ok ts[n]) ∧ l.answer ts.length = r ∧
      ∀ eof, r = .ok eof → ∀ n, ts.length ≤ n → l.answer n = .ok eof := by
  induction hy generalizing l with
  | @ends p q r hread hr =>
    have hnext := h.next
    rw [hread] at hnext
    refine ⟨nofun, hnext.1, ?_⟩
    rintro eof rfl n -
    obtain ⟨-, -, -, hagain⟩ := Place.readToken_eof hread (hr eof rfl)
    cases n with
    | zero => exact hnext.1
    | succ n =>
      exact hnext.2.eof hagain n
  | @token p q t ts r hread ht _ ih =>
    have hnext := h.next
    rw [hread] at hnext
    obtain ⟨htokens, hending, heof⟩ := ih hnext.2
    refine ⟨fun n hn => ?_, hending, fun eof hr n hn => ?_⟩
    · cases n with
      | zero => exact hnext.1
      | succ n => exact htokens n (Nat.lt_of_succ_lt_succ hn)
    · obtain ⟨n, rfl⟩ := Nat.exists_eq_add_one.2 (Nat.lt_of_lt_of_le (Nat.succ_pos _) hn)
      exact heof eof hr n (Nat.le_of_succ_le_succ hn)

/-- What the tokens that calls answer with have in common, and what they leave out. -/
structure Covers (source : String) (ts : List Token) (ending : Except (Located LexError) Token) :
    Prop where
  symbols : ∀ t ∈ ts, t.symbol ≠ .eof
  nonempty : ∀ t ∈ ts, t.span.start.offset < t.span.stop.offset
  ordered : ts.Pairwise fun t u => t.span.stop.offset ≤ u.span.start.offset
  values : ∀ t ∈ ts, t.value.isSome = true ↔
    t.symbol = .name ∨ t.symbol = .string ∨ t.symbol = .number
  /-- A mark of byte order may stand before all else. -/
  tiles : ∃ mark rest, source.toList = mark ++ rest ∧ (mark = [] ∨ mark = ['\uFEFF']) ∧
    Tiles ending (String.utf8Len mark) rest ts
  ending : ∀ eof, ending = .ok eof → eof.symbol = .eof ∧ eof.span.start = eof.span.stop ∧
    eof.span.start.offset = source.utf8ByteSize

/-- Calls come to the end of a source or to an error, with no more tokens before than the source has
bytes. These tokens and filler make up the source, and once at its end every call answers with it. -/
theorem covers_ofText (source : String) :
    ∃ ts ending, ts.length ≤ source.utf8ByteSize ∧
      (∀ n (hn : n < ts.length), (ofText source).answer n = .ok ts[n]) ∧
      (ofText source).answer ts.length = ending ∧ Covers source ts ending ∧
      ∀ eof, ending = .ok eof → ∀ n, ts.length ≤ n → (ofText source).answer n = .ok eof := by
  have hyields := Place.yields_ofPlace (Place.ofText source.toList)
  generalize (Tokens.ofPlace (Place.ofText source.toList)).tokens = ts at hyields
  generalize (Tokens.ofPlace (Place.ofText source.toList)).ending = ending at hyields
  obtain ⟨htokens, hending, hforever⟩ := (at_ofSource source false).yields hyields
  obtain ⟨mark, rest, hsource, hmark, htiles⟩ := hyields.exists_tiles
  have hsize : source.utf8ByteSize = String.utf8Len mark + String.utf8Len rest := by
    rw [← String.utf8Len_append, ← hsource, ← String.utf8ByteSize_ofList, String.ofList_toList]
  have hlength : ts.length ≤ source.utf8ByteSize := by
    have hcs := htiles.length_le
    have hrest := length_le_utf8Len rest
    omega
  refine ⟨ts, ending, hlength, htokens, hending, ⟨fun t ht => (hyields.sound.1 t ht).1,
    fun t ht => (htiles.nonempty t ht).2, htiles.ordered, fun t ht => ?_,
    ⟨mark, rest, hsource, hmark, htiles⟩, fun eof heof => ?_⟩, hforever⟩
  · rw [hyields.carriesText.1 t ht]
    cases t.symbol <;> simp [Symbol.carriesText]
  · exact ⟨hyields.sound.2 eof heof, (htiles.eof heof).1, hsize ▸ (htiles.eof heof).2⟩

end Lexer

end LuaSource
