-- SUMMARY: The tokens of a text as a relation: where each is read and what may be cut off behind it.
import LuaSource.Lexer
import LuaSource.Proofs.Lexeme.Sound
import Mathlib.Data.String.Basic

/-!
# Token streams

Reading token after token, up to the end of the text or an error, relates a place to the tokens
that are read from it on. The first tokens stay the same when the text behind them is replaced.
-/

namespace LuaSource

/-! ## Positions -/

namespace Position

theorem after_append (p : Position) (cs ds : List Char) (h : ds.head? ≠ some '\n') :
    p.after (cs ++ ds) = (p.after cs).after ds := by
  induction cs generalizing p with
  | nil => rfl
  | cons c cs ih =>
    rw [List.cons_append, after_cons, after_cons, ih]
    congr 2
    cases cs with
    | nil => simp [next, h]
    | cons d ds => rfl

theorem line_next_le (p : Position) (c : Char) (cs : List Char) : p.line ≤ (p.next c cs).line := by
  unfold next
  split
  · exact Nat.le_succ _
  · split <;> exact Nat.le_refl _

theorem line_le_after (p : Position) (cs : List Char) : p.line ≤ (p.after cs).line := by
  induction cs generalizing p with
  | nil => exact Nat.le_refl _
  | cons c cs ih => exact Nat.le_trans (line_next_le p c cs) (ih _)

/-- Offsets count bytes. -/
theorem offset_after (p : Position) (cs : List Char) :
    (p.after cs).offset = p.offset + String.utf8Len cs := by
  induction cs generalizing p with
  | nil => rfl
  | cons c cs ih =>
    rw [after_cons, ih, next_offset, String.utf8Len_cons]
    omega

theorem offset_le_after (p : Position) (cs : List Char) :
    p.offset + cs.length ≤ (p.after cs).offset := by
  induction cs generalizing p with
  | nil => exact Nat.le_refl _
  | cons c cs ih =>
    have hsize := c.utf8Size_pos
    have hih := ih (p.next c cs)
    rw [next_offset] at hih
    rw [after_cons, List.length_cons]
    omega

end Position

/-! ## One token -/

namespace Place

theorem skip_append (word rest : List Char) (p : Position) :
    Place.skip ⟨word ++ rest, p⟩ word.length = ⟨rest, p.after word⟩ := by
  rw [skip, List.drop_left, List.take_left]

/-- A source without a mark of byte order is read from its start. -/
theorem ofText_eq {text : List Char} (h : text.head? ≠ some '\uFEFF') :
    ofText text = ⟨text, Position.start⟩ := by
  cases text with
  | nil => rfl
  | cons c cs =>
    rw [ofText, if_neg]
    rintro rfl
    exact h rfl

theorem readToken_ok {blanks word rest : List Char} {p : Position} {l : Lexeme}
    (hblanks : Trivia.read (blanks ++ (word ++ rest)) = ⟨blanks.length, .ok ()⟩)
    (hlexeme : Lexeme.read (word ++ rest) = ⟨word.length, .ok l⟩) :
    Place.readToken ⟨blanks ++ (word ++ rest), p⟩ =
      (.ok { l with span := ⟨p.after blanks, (p.after blanks).after word⟩ },
        ⟨rest, (p.after blanks).after word⟩) := by
  unfold readToken
  dsimp only
  rw [hblanks]
  dsimp only
  rw [skip_append, hlexeme]
  dsimp only
  rw [skip_append]

/-- What is read as a token is a lexeme behind blanks. -/
theorem readToken_eq_ok {p q : Place} {t : Token} (h : p.readToken = (.ok t, q)) :
    ∃ blanks rest n, p.rest = blanks ++ rest ∧
      Trivia.read (blanks ++ rest) = ⟨blanks.length, .ok ()⟩ ∧
      Lexeme.read rest = ⟨n, .ok t.toLexeme⟩ ∧ t.span.start = p.position.after blanks ∧
      (∀ c r, rest.head? = some c → Trivia.Ends (c :: r) →
        Trivia.read (blanks ++ c :: r) = ⟨blanks.length, .ok ()⟩) ∧ Trivia.Ends rest := by
  obtain ⟨text, position⟩ := p
  obtain ⟨k, result, htrivia⟩ : ∃ k result, Trivia.read text = ⟨k, result⟩ := ⟨_, _, rfl⟩
  cases result with
  | error e =>
    unfold readToken at h
    dsimp only at h
    rw [htrivia] at h
    cases h
  | ok result =>
    obtain ⟨blanks, rest, rfl, rfl, hends, hcut⟩ := Trivia.read_cut k htrivia
    obtain ⟨n, result, hlexeme⟩ : ∃ n result, Lexeme.read rest = ⟨n, result⟩ := ⟨_, _, rfl⟩
    suffices ht : Lexeme.read rest = ⟨n, .ok t.toLexeme⟩ ∧ t.span.start = position.after blanks from
      ⟨blanks, rest, n, rfl, htrivia, ht.1, ht.2, hcut, hends⟩
    unfold readToken at h
    dsimp only at h
    rw [htrivia] at h
    dsimp only at h
    rw [skip_append, hlexeme] at h
    cases result with
    | error e => cases h
    | ok l =>
      cases h
      exact ⟨hlexeme, rfl⟩

/-- A token is read behind blanks, and the same one where the text behind it is resumed in another
way. -/
theorem readToken_cut {p q : Place} {t : Token} (h : p.readToken = (.ok t, q))
    (ht : t.symbol ≠ .eof) :
    ∃ blanks word, p.rest = blanks ++ (word ++ q.rest) ∧ word ≠ [] ∧
      t.span.start = p.position.after blanks ∧ t.span.stop = t.span.start.after word ∧
      q.position = t.span.stop ∧ t.toLexeme.Sound ∧
      ∀ r, Resumes q.rest r →
        Place.readToken ⟨blanks ++ (word ++ r), p.position⟩ = (.ok t, ⟨r, q.position⟩) := by
  obtain ⟨blanks, rest, n, hrest, htrivia, hlexeme, -, hcut, hends⟩ := readToken_eq_ok h
  cases rest with
  | nil =>
    injection hlexeme with _ hresult
    injection hresult with hresult
    exact absurd (congrArg Lexeme.symbol hresult).symm ht
  | cons c cs =>
    obtain ⟨word, behind, rfl, rfl, hread⟩ := Lexeme.read_cut hlexeme
    have hread' : ∀ r, Resumes behind r →
        Place.readToken ⟨blanks ++ (c :: word ++ r), p.position⟩ =
          (.ok { t.toLexeme with span :=
            ⟨p.position.after blanks, (p.position.after blanks).after (c :: word)⟩ },
          ⟨r, (p.position.after blanks).after (c :: word)⟩) := fun r hr =>
      readToken_ok (hcut c (word ++ r) rfl (hends.resume hr)) (hread r hr)
    have hp : p = ⟨blanks ++ (c :: word ++ behind), p.position⟩ := by
      rw [List.cons_append, ← hrest]
    rw [hp, hread' behind (.refl _)] at h
    injection h with htoken hplace
    injection htoken with htoken
    subst hplace
    rw [htoken] at hread'
    have hspan := congrArg Token.span htoken
    refine ⟨blanks, c :: word, hrest, List.cons_ne_nil _ _, ?_, ?_, ?_,
      (Lexeme.sound_read hlexeme).1, hread'⟩
    · rw [← hspan]
    · rw [← hspan]
    · rw [← hspan]

/-! ## All tokens -/

/-- The tokens that are read from a place on, and what they end with. -/
inductive Yields : Place → List Token → Except (Located LexError) Token → Prop
  | ends {p q : Place} {r : Except (Located LexError) Token} (h : p.readToken = (r, q))
      (hr : ∀ t, r = .ok t → t.symbol = .eof) : Yields p [] r
  | token {p q : Place} {t : Token} {ts : List Token} {r : Except (Located LexError) Token}
      (h : p.readToken = (.ok t, q)) (ht : t.symbol ≠ .eof) (hq : Yields q ts r) :
      Yields p (t :: ts) r

variable {p : Place} {ts us : List Token} {r : Except (Located LexError) Token}

theorem Yields.unique {r' : Except (Located LexError) Token} (h : p.Yields ts r)
    (h' : p.Yields us r') : ts = us ∧ r = r' := by
  induction h generalizing us with
  | ends h hr =>
    cases h' with
    | ends h' =>
      rw [h] at h'
      cases h'
      exact ⟨rfl, rfl⟩
    | token h' ht =>
      rw [h] at h'
      cases h'
      exact absurd (hr _ rfl) ht
  | token h ht _ ih =>
    cases h' with
    | ends h' hr =>
      rw [h] at h'
      cases h'
      exact absurd (hr _ rfl) ht
    | token h' _ hq =>
      rw [h] at h'
      cases h'
      obtain ⟨rfl, rfl⟩ := ih hq
      exact ⟨rfl, rfl⟩

theorem yields_readFrom (done : List Token) (p : Place) {n : Nat} (hn : p.rest.length < n) :
    ∃ ts r, Tokens.readFrom done p n = ⟨done.reverse ++ ts, r⟩ ∧ p.Yields ts r := by
  induction n generalizing done p with
  | zero => exact absurd hn (Nat.not_lt_zero _)
  | succ n ih =>
    obtain ⟨r, q, h⟩ : ∃ r q, p.readToken = (r, q) := ⟨_, _, rfl⟩
    rw [Tokens.readFrom, h]
    cases r with
    | error e => exact ⟨[], _, by rw [List.append_nil], .ends h nofun⟩
    | ok t =>
      dsimp only
      by_cases ht : t.symbol = .eof
      · rw [if_pos ht]
        refine ⟨[], _, by rw [List.append_nil], .ends h fun u hu => ?_⟩
        cases hu
        exact ht
      · rw [if_neg ht]
        have hq : q.rest.length < n := by
          obtain ⟨blanks, word, hrest, hword, -⟩ := readToken_cut h ht
          have hpos := List.length_pos_iff.2 hword
          rw [hrest, List.length_append, List.length_append] at hn
          omega
        obtain ⟨ts, r, heq, hy⟩ := ih (t :: done) q hq
        refine ⟨t :: ts, r, ?_, .token h ht hy⟩
        rw [heq, List.reverse_cons, List.append_assoc, List.singleton_append]

theorem yields_ofPlace (p : Place) :
    p.Yields (Tokens.ofPlace p).tokens (Tokens.ofPlace p).ending := by
  obtain ⟨ts, r, heq, hy⟩ := yields_readFrom [] p (Nat.lt_succ_self _)
  rw [Tokens.ofPlace, heq]
  exact hy

theorem Yields.ofPlace_eq (h : p.Yields ts r) : Tokens.ofPlace p = ⟨ts, r⟩ := by
  obtain ⟨hts, hr⟩ := (yields_ofPlace p).unique h
  rw [← hts, ← hr]

/-- The text behind the first tokens can be replaced by any other one that resumes it. -/
theorem Yields.cut (h : p.Yields (ts ++ us) r) :
    ∃ (text : List Char) (q : Place), p.rest = text ++ q.rest ∧ q.Yields us r ∧
      q.position = (ts.getLast?.map (·.span.stop)).getD p.position ∧
      q.position.offset = p.position.offset + String.utf8Len text ∧ (ts ≠ [] → text ≠ []) ∧
      ∀ rest vs r', Resumes q.rest rest → Yields ⟨rest, q.position⟩ vs r' →
        Yields ⟨text ++ rest, p.position⟩ (ts ++ vs) r' := by
  induction ts generalizing p with
  | nil =>
    exact ⟨[], p, rfl, h, rfl, rfl, fun hne => absurd rfl hne, fun _ _ _ _ hy => hy⟩
  | cons t ts ih =>
    cases h with
    | token h ht hq =>
      obtain ⟨blanks, word, hrest, hword, hstart, hstop, hposition, -, hread⟩ := readToken_cut h ht
      obtain ⟨text, q, htext, hy, hq, hoffset, -, hcut⟩ := ih hq
      refine ⟨blanks ++ (word ++ text), q, ?_, hy, ?_, ?_, fun _ hnil => ?_,
        fun rest vs r' hr hvs => ?_⟩
      · rw [hrest, htext]
        simp only [List.append_assoc]
      · rw [hq, List.getLast?_cons]
        cases ts.getLast? with
        | none => exact hposition
        | some u => rfl
      · rw [hoffset, hposition, hstop, hstart, Position.offset_after, Position.offset_after,
          String.utf8Len_append, String.utf8Len_append]
        omega
      · exact hword (List.append_eq_nil_iff.1 (List.append_eq_nil_iff.1 hnil).2).1
      · have hresumes := hread (text ++ rest) (htext ▸ hr.append)
        rw [List.append_assoc, List.append_assoc]
        exact .token hresumes ht (hcut rest vs r' hr hvs)

/-! ## Order -/

theorem Yields.sound (h : p.Yields ts r) :
    (∀ t ∈ ts, t.symbol ≠ .eof ∧ t.toLexeme.Sound) ∧ ∀ t, r = .ok t → t.symbol = .eof := by
  induction h with
  | ends h hr => exact ⟨nofun, hr⟩
  | token h ht _ ih =>
    obtain ⟨-, -, -, -, -, -, -, hsound, -⟩ := readToken_cut h ht
    exact ⟨List.forall_mem_cons.2 ⟨⟨ht, hsound⟩, ih.1⟩, ih.2⟩

/-- A token has a text of its own if and only if its symbol carries one. -/
theorem Yields.carriesText (h : p.Yields ts r) :
    (∀ t ∈ ts, t.value.isSome = t.symbol.carriesText) ∧
      ∀ t, r = .ok t → t.value.isSome = t.symbol.carriesText := by
  have hread : ∀ {p q : Place} {t : Token}, p.readToken = (.ok t, q) →
      t.value.isSome = t.symbol.carriesText := by
    intro p q t h
    obtain ⟨_, _, _, -, -, hlexeme, -⟩ := readToken_eq_ok h
    exact Lexeme.carriesText_read hlexeme
  induction h with
  | ends h hr =>
    refine ⟨nofun, ?_⟩
    rintro t rfl
    exact hread h
  | token h ht _ ih => exact ⟨List.forall_mem_cons.2 ⟨hread h, ih.1⟩, ih.2⟩

theorem offset_le_start {q : Place} {t : Token} (h : p.readToken = (.ok t, q)) :
    p.position.offset ≤ t.span.start.offset := by
  obtain ⟨blanks, -, -, -, -, -, hstart, -⟩ := readToken_eq_ok h
  rw [hstart]
  exact Nat.le_trans (Nat.le_add_right _ _) (p.position.offset_le_after blanks)

/-- Every token starts before the next one. -/
theorem Yields.sorted (h : p.Yields ts r) :
    (ts ++ r.toOption.toList).Pairwise (·.span.start.offset < ·.span.start.offset) ∧
      ∀ t ∈ ts ++ r.toOption.toList, p.position.offset ≤ t.span.start.offset := by
  induction h with
  | @ends p q r h hr =>
    cases r with
    | error e => exact ⟨.nil, nofun⟩
    | ok t =>
      refine ⟨List.pairwise_singleton _ _, fun u hu => ?_⟩
      obtain rfl := List.mem_singleton.1 hu
      exact offset_le_start h
  | @token p q t ts r h ht _ ih =>
    obtain ⟨blanks, word, -, hword, hstart, hstop, hposition, -, -⟩ := readToken_cut h ht
    have hfirst := offset_le_start h
    have hlonger := t.span.start.offset_le_after word
    have hpos := List.length_pos_iff.2 hword
    rw [hposition, hstop] at ih
    rw [List.cons_append]
    refine ⟨List.pairwise_cons.2 ⟨fun u hu => ?_, ih.1⟩, List.forall_mem_cons.2 ⟨hfirst, ?_⟩⟩
    · have := ih.2 u hu
      omega
    · intro u hu
      have := ih.2 u hu
      omega

theorem line_le_start {q : Place} {t : Token} (h : p.readToken = (.ok t, q)) :
    p.position.line ≤ t.span.start.line := by
  obtain ⟨blanks, -, -, -, -, -, hstart, -⟩ := readToken_eq_ok h
  rw [hstart]
  exact Position.line_le_after _ _

/-- No token starts on a line before the one on which a token before it ends. -/
theorem Yields.lines (h : p.Yields ts r) :
    ts.Pairwise (·.span.stop.line ≤ ·.span.start.line) ∧
      ∀ t ∈ ts, p.position.line ≤ t.span.start.line := by
  induction h with
  | ends h hr => exact ⟨.nil, nofun⟩
  | @token p q t ts r h ht _ ih =>
    obtain ⟨blanks, word, -, -, -, hstop, hposition, -, -⟩ := readToken_cut h ht
    have hfirst := line_le_start h
    have hword : t.span.start.line ≤ t.span.stop.line := by
      rw [hstop]
      exact Position.line_le_after _ _
    rw [hposition] at ih
    exact ⟨List.pairwise_cons.2 ih.symm, List.forall_mem_cons.2
      ⟨hfirst, fun u hu => (hfirst.trans hword).trans (ih.2 u hu)⟩⟩

/-- No token ends before the line on which it starts. -/
theorem Yields.line_le_stop (h : p.Yields ts r) :
    ∀ t ∈ ts, t.span.start.line ≤ t.span.stop.line := by
  induction h with
  | ends => exact nofun
  | @token p q t ts r h ht _ ih =>
    obtain ⟨blanks, word, -, -, -, hstop, -⟩ := readToken_cut h ht
    refine List.forall_mem_cons.2 ⟨?_, ih⟩
    rw [hstop]
    exact Position.line_le_after _ _

/-- The end of a source is on no line before the one on which a token ends. -/
theorem Yields.line_le_eof {eof : Token} (h : p.Yields ts r) (hr : r = .ok eof) :
    p.position.line ≤ eof.span.start.line ∧
      ∀ t ∈ ts, t.span.stop.line ≤ eof.span.start.line := by
  induction h with
  | ends h =>
    subst hr
    exact ⟨line_le_start h, nofun⟩
  | @token p q t ts r h ht _ ih =>
    obtain ⟨blanks, word, -, -, -, hstop, hposition, -, -⟩ := readToken_cut h ht
    obtain ⟨hline, hlines⟩ := ih hr
    rw [hposition] at hline
    have hfirst := line_le_start h
    have hword : t.span.start.line ≤ t.span.stop.line := by
      rw [hstop]
      exact Position.line_le_after _ _
    exact ⟨(hfirst.trans hword).trans hline, List.forall_mem_cons.2 ⟨hline, hlines⟩⟩

end Place

end LuaSource
