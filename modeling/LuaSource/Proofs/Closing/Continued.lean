-- SUMMARY: Programs that begin with given tokens and go on with a given symbol.
import LuaSource.Proofs.Closing.Forks
import LuaSource.Proofs.Excerpt
import LuaSource.Proofs.Fault
import LuaSource.Proofs.Grammar.Orderly
import LuaSource.Proofs.Grammar.Room

/-!
# Tokens that go on

What may come behind the first tokens of a source is told by the programs that begin with these
tokens. The token behind them can be moved to another place on the line, and a parser that takes a
name there finds the beginning of a program.
-/

namespace LuaSource

/-- There is a program that begins with these tokens and has the symbol behind them. -/
def GoesOn (before : List Token) (s : Symbol) : Prop :=
  ∃ source options b t after, parse source options = .ok b ∧ t.symbol = s ∧
    (Tokens.ofSource source options.skipShebang).tokens = before ++ t :: after

/-- Where the last of some tokens ends. -/
def lastStop (ts : List Token) : Position := (ts.getLast?.map (·.span.stop)).getD Position.start

/-! ## A token that is moved -/

theorem lettersFrom_append_cons (before after : List Token) (t : Token) :
    lettersFrom Position.start (before ++ t :: after) =
      lettersFrom Position.start before ++ t.letter (lastStop before) ::
        lettersFrom t.span.stop after := lettersFrom_append ..

/-- The token behind the given ones may start at any place on their line. -/
theorem GoesOn.exists_window {before : List Token} {s : Symbol} (h : GoesOn before s) {p : Position}
    (hline : p.line = (lastStop before).line) :
    ∃ t after eof b, t.symbol = s ∧ t.span.start = p ∧
      Window.Ready ⟨before ++ t :: after, .ok eof, Position.start⟩ ∧
      lettersFrom Position.start (before ++ t :: after) ∈ Spelling.block b ∧
      Everywhere.block grammatical b := by
  obtain ⟨source, options, b, t, after, hparse, hs, htokens⟩ := h
  obtain ⟨eof, hending⟩ := exists_eof_of_parse hparse
  obtain ⟨-, hsound, -⟩ := parse_sound hparse
  have hproper := Tokens.proper_ofSource source options.skipShebang
  have hahead : ∀ u ∈ before ++ t :: after, u.symbol ≠ .eof ∧ u.toLexeme.Sound := by
    rw [← htokens]
    exact hproper.ahead
  obtain ⟨hbefore, hbehind⟩ := List.forall_mem_append.1 hahead
  obtain ⟨ht, hafter⟩ := List.forall_mem_cons.1 hbehind
  refine ⟨{ t with span := ⟨p, t.span.stop⟩ }, after, eof, b, hs, rfl, ⟨⟨?_, ?_⟩, eof, rfl⟩, ?_,
    Everywhere.mono_block sound_implies_grammatical b hsound⟩
  · exact List.forall_mem_append.2 ⟨hbefore, List.forall_mem_cons.2 ⟨ht, hafter⟩⟩
  · rintro u ⟨⟩
    exact hproper.ending eof hending
  · refine Placing.relaxes_block _ b _ (placed_of_parse hparse) _ ?_
    rw [Window.marks, map_toLetter_marksFrom]
    show List.Forall₂ Letter.Loosens
      (lettersFrom Position.start (Tokens.ofSource source options.skipShebang).tokens) _
    rw [htokens, lettersFrom_append_cons, lettersFrom_append_cons]
    refine List.rel_append (List.forall₂_same.2 fun c _ => .refl c) (.cons ⟨rfl, fun _ => ?_⟩ ?_)
    · exact beq_iff_eq.2 hline
    · exact List.forall₂_same.2 fun c _ => .refl c

/-! ## A name that is taken -/

/-- Where all tokens can be read and there are more levels than tokens, a fault is grammatical. -/
theorem isGrammatical_of_chunk {w : Window} {depth : Nat} {e : Located ParseFault} (hw : w.Ready)
    (hdepth : w.ahead.length < depth) (h : Grammar.chunk (Level.ofDepth depth) w = .error e) :
    e.cause.isGrammatical = true := by
  have hroom : (Grammar.chunk (Level.ofDepth depth)).Room depth :=
    ((Room.room_ofDepth depth).block []).bind fun _ => .symbol fun _ =>
      .ite .pure (.fail fun _ => rfl)
  obtain ⟨k, w', hadvance, hraises⟩ := (Orderly.chunk_orderly depth).fault h
  obtain ⟨eof, hending⟩ := hw.readable
  cases hcause : e.cause with
  | lexical cause =>
    rcases hraises with ⟨le, hle, -⟩ | ⟨hnear, -⟩
    · have herror := (Window.errorWithin?_eq_some_iff.1 hle).1
      rw [Window.ending_of_advance hadvance, hending] at herror
      cases herror
    · rw [hcause] at hnear
      cases hnear
  | tooManyLevels near =>
    have hle := (hroom w hw.proper).deep h (by rw [hcause]; rfl)
    omega
  | _ => rfl

/-- The name that stands for all names, at a place. -/
def Token.x (p : Position) : Token :=
  { symbol := .name, value := some "x", span := ⟨p, ⟨p.line, p.column + 1, p.offset + 1⟩⟩ }

/-- The first `i` tokens of a source with a name behind them at `p`, and no tokens more. -/
def Tokens.withName (ts : Tokens) (i : Nat) (p : Position) : Window :=
  ⟨ts.tokens.take i ++ [Token.x p], .ok (Token.eof p), Position.start⟩

theorem Tokens.ready_withName {ts : Tokens} (hts : ts.window.Proper) (i : Nat) (p : Position) :
    (ts.withName i p).Ready := by
  refine ⟨⟨List.forall_mem_append.2 ⟨fun t ht => hts.ahead t (List.mem_of_mem_take ht), ?_⟩, ?_⟩,
    _, rfl⟩
  · intro t ht
    obtain rfl := List.mem_singleton.1 ht
    refine ⟨fun heof => ?_, fun _ => isName_x, fun hnumber => ?_⟩
    · cases heof
    · cases hnumber
  · rintro t ⟨⟩
    rfl

theorem Tokens.letters_withName {ts : Tokens} {i : Nat} {p : Position}
    (hline : p.line = (lastStop (ts.tokens.take i)).line) :
    (ts.withName i p).letters = ts.letters.take i ++ [Letter.x] := by
  have hx : (Token.x p).letter (lastStop (ts.tokens.take i)) = Letter.x := by
    rw [Token.letter, beq_iff_eq.2 (show (Token.x p).span.start.line = _ from hline)]
    rfl
  show lettersFrom Position.start (_ ++ Token.x p :: []) = _
  rw [lettersFrom_append_cons, hx, lettersFrom_take]
  rfl

theorem Tokens.length_withName {ts : Tokens} {i : Nat} {p : Position} (hi : i ≤ ts.tokens.length) :
    (ts.withName i p).ahead.length = i + 1 := by
  rw [withName, List.length_append, List.length_take_of_le hi]
  rfl

/-- Only the end takes up no text. -/
theorem Tokens.token_withName {ts : Tokens} {i j : Nat} {p : Position}
    (hts : ∀ t ∈ ts.tokens, t.span.start ≠ t.span.stop) (hi : i ≤ ts.tokens.length)
    (hspan : ((ts.withName i p).token j).span = ((ts.withName i p).token (i + 1)).span) :
    i < j := by
  by_contra hle
  have hlength := @length_withName ts i p hi
  have hlt : j < (ts.withName i p).ahead.length := by omega
  have hnone : (ts.withName i p).ahead[i + 1]? = none :=
    List.getElem?_eq_none (Nat.le_of_eq hlength)
  rw [Window.token, Window.token, List.getElem?_eq_getElem hlt, hnone, Option.getD_some,
    Option.getD_none] at hspan
  have hnonempty : ∀ t ∈ (ts.withName i p).ahead, t.span.start ≠ t.span.stop := by
    refine List.forall_mem_append.2 ⟨fun t ht => hts t (List.mem_of_mem_take ht), fun t ht => ?_⟩
    obtain rfl := List.mem_singleton.1 ht
    exact fun h => Nat.succ_ne_self p.offset (congrArg Position.offset h).symm
  refine hnonempty _ (List.getElem_mem hlt) ?_
  rw [hspan]
  rfl

/-- Where the name is taken, whatever comes then, it can be completed to a program. -/
theorem exists_completed_name {ts : Tokens} {i depth : Nat} {p : Position}
    (hproper : ts.window.Proper) (hts : ∀ t ∈ ts.tokens, t.span.start ≠ t.span.stop)
    (hi : i ≤ ts.tokens.length) (hdepth : i + 1 < depth)
    (h : (Grammar.chunk (Level.ofDepth depth)).Beyond i (ts.withName i p)) :
    ∃ v b, IsPlain v ∧ (ts.withName i p).letters ++ v ∈ Spelling.block b ∧
      Everywhere.block sound b := by
  have hready := Tokens.ready_withName hproper i p
  have hlength := Tokens.length_withName (p := p) hi
  have hwhole : ∀ {u : List Letter} {w : Window}, (ts.withName i p).Advance u w →
      w.ahead = [] → (ts.withName i p).letters = u := by
    intro u w hadvance hnil
    rw [hadvance.letters, Window.letters, hnil]
    exact List.append_nil u
  cases hchunk : Grammar.chunk (Level.ofDepth depth) (ts.withName i p) with
  | ok r =>
    obtain ⟨b, w⟩ := r
    obtain ⟨⟨u, hu, hadvance⟩, hb, -, hend⟩ := (chunk_meets hready.proper).ok hchunk
    refine ⟨[], b, isPlain_nil, ?_, hb⟩
    rwa [List.append_nil, hwhole hadvance (hadvance.proper.ahead_eq_nil hend)]
  | error e =>
    have hg := isGrammatical_of_chunk hready (by omega) hchunk
    obtain ⟨j, hj, hle, hspan, -⟩ := Parse.LocalAt.fault h hchunk hg
    obtain ⟨b, w, ⟨u, v, hadvance, hv, hword⟩, hb, hspan'⟩ :=
      (chunk_meets hready.proper).fault hchunk hg
    obtain rfl : j = i + 1 := by omega
    have hu : i < u.length := by
      refine Tokens.token_withName (p := p) hts hi ?_
      rw [← hadvance.current, ← hspan', hspan]
    have hsum := hadvance.length
    exact ⟨v, b, hv, by rwa [hwhole hadvance (List.length_eq_zero_iff.1 (by omega))], hb⟩

theorem Tokens.take_of_stream {ts us : Tokens} {i : Nat} (hts : i ≤ ts.tokens.length)
    (hus : i ≤ us.tokens.length) (h : us.stream.take i = ts.stream.take i) :
    us.tokens.take i = ts.tokens.take i := by
  rw [stream, stream, List.take_append_of_le_length (by simpa using hus),
    List.take_append_of_le_length (by simpa using hts), ← List.map_take, ← List.map_take] at h
  exact List.map_injective_iff.2 (fun _ _ => Except.ok.inj) h

/-- A source that can be completed behind a name has programs that go on with a name there. -/
theorem goesOn_of_letters {source : String} {skipShebang : Bool} {i : Nat} {v : List Letter}
    {b : Block} (hi : i ≤ (Tokens.ofSource source skipShebang).tokens.length) (hv : IsPlain v)
    (hword : (Tokens.ofSource source skipShebang).letters.take i ++ Letter.x :: v ∈
      Spelling.block b) (hb : Everywhere.block sound b) :
    GoesOn ((Tokens.ofSource source skipShebang).tokens.take i) .name := by
  obtain ⟨source', eof, hending, htake, hletters⟩ := exists_resumed (v := Letter.x :: v) hi
    (isPlain_x.append hv) (by
      intro hhash
      have hfollows := begins_block b _ hword
      rw [hhash] at hfollows
      cases hfollows)
  obtain ⟨b', hparse, -⟩ := @parse_complete source'
    { skipShebang := skipShebang, maxDepth := Need.block b } b eof hending
    (hletters ▸ hword) (Everywhere.mono_block sound_implies_grammatical b hb) le_rfl
  generalize hus : Tokens.ofSource source' skipShebang = us at hletters htake
  generalize Tokens.ofSource source skipShebang = ts at hi hletters htake ⊢
  have hcount : us.tokens.length = i + 1 + v.length := by
    have hlengths := congrArg List.length hletters
    rw [Tokens.letters, Tokens.letters, length_lettersFrom, List.length_append, List.length_take,
      length_lettersFrom, List.length_cons] at hlengths
    omega
  have htokens := Tokens.take_of_stream hi (by omega) htake
  have hlt : i < us.tokens.length := by omega
  have hsplit : us.tokens = ts.tokens.take i ++ us.tokens[i] :: us.tokens.drop (i + 1) := by
    rw [← htokens, ← List.drop_eq_getElem_cons hlt, List.take_append_drop]
  refine ⟨source', _, b', us.tokens[i], _, hparse, ?_, by rw [hus]; exact hsplit⟩
  rw [Tokens.letters, hsplit, lettersFrom_append_cons, lettersFrom_take] at hletters
  have hx := (List.cons.inj (List.append_cancel_left hletters)).1
  exact congrArg (fun c : Letter => c.symbol) hx

end LuaSource
