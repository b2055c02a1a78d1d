-- SUMMARY: Calls of the lexer give the tokens of the source one by one, whatever was read before.
import LuaSource.Proofs.Lexeme.Filler
import LuaSource.Proofs.Scanner.Lexeme

/-!
# Scanning tokens

All scanners share one buffer, and some fail with a value half collected. Wherever that happens,
the buffer is emptied or the text is at its end, so that what is read next depends on the place
alone.
-/

namespace LuaSource

/-! ## Blanks before a token -/

/-- Blanks and comments at a place can be left out. -/
theorem Place.readToken_skip {piece rest : List Char} (h : Breaks piece rest)
    (htrivia : Trivia.read (piece ++ rest) = (Trivia.read rest).after piece.length)
    (p : Position) :
    Place.readToken ⟨piece ++ rest, p⟩ = Place.readToken ⟨rest, p.after piece⟩ := by
  unfold readToken
  dsimp only
  rw [htrivia, Scan.after, skip_append_add h]

theorem Comment.breaks {rest text : List Char} (h : Comment rest text) : Breaks text rest := by
  cases h with
  | line _ hline =>
    exact .of_all (List.forall_mem_cons.2 ⟨rfl, List.forall_mem_cons.2 ⟨rfl, hline⟩⟩) rest
  | @long level body =>
    have hclose : Breaks [']'] rest := .single rfl rest
    have htext : '-' :: '-' :: (LongBracket.opener level ++ (body ++ LongBracket.closer level)) =
        ('-' :: '-' :: (LongBracket.opener level ++ (body ++
          (']' :: List.replicate level '=')))) ++ [']'] := by
      simp [LongBracket.closer]
    rw [htext]
    exact hclose.append (List.cons_ne_nil _ _)

namespace Scanner

open Scanning

variable {source cs ds : List Char} {p : Position} {b : String} {ch : Char}

/-- The buffer is empty, or there is nothing left that could be saved in it. -/
def Clean (c : Cursor) : Prop := c.buffer = "" ∨ c.place.rest = []

/-- The result is the token or the error that the place `q` holds, and leaves a clean cursor. -/
def Answers (source : List Char) (q : Place) (r : EStateM.Result (Located LexError) Cursor Token) :
    Prop :=
  ∃ b, Clean ⟨source, q.readToken.2, b⟩ ∧
    r = match q.readToken.1 with
      | .ok t => .ok t ⟨source, q.readToken.2, b⟩
      | .error e => .error e ⟨source, q.readToken.2, b⟩

theorem Mirrors.answers {q : Place} {r : EStateM.Result (Located LexError) Cursor Token}
    (hends : Trivia.Ends q.rest) (h : Mirrors source q (Lexeme.read q.rest) r) :
    Answers source q r := by
  rw [Mirrors] at h
  rw [Answers, Place.readToken, Trivia.read_of_ends hends]
  dsimp only
  rw [Place.skip_zero]
  cases hresult : (Lexeme.read q.rest).result with
  | ok l =>
    rw [hresult] at h
    exact ⟨"", .inl rfl, h⟩
  | error e =>
    rw [hresult] at h
    obtain ⟨b, h, hclean⟩ := h
    exact ⟨b, hclean, h⟩

/-- The token at `q` is still to be read: between there and the cursor are blanks and comments. -/
def Before (source : List Char) (q : Place) (c : Cursor) : Prop :=
  ∃ r b, c = ⟨source, r, b⟩ ∧ Clean c ∧ q.readToken = r.readToken

theorem Before.skip {q : Place} {piece rest : List Char}
    (hq : q.readToken = Place.readToken ⟨piece ++ rest, p⟩) (hbreaks : Breaks piece rest)
    (htrivia : Trivia.read (piece ++ rest) = (Trivia.read rest).after piece.length) :
    Before source q ⟨source, ⟨rest, p.after piece⟩, ""⟩ := by
  rw [Place.readToken_skip hbreaks htrivia] at hq
  exact ⟨_, "", rfl, .inl rfl, hq⟩

theorem Answers.of_readToken {q r : Place} (h : q.readToken = r.readToken)
    {result : EStateM.Result (Located LexError) Cursor Token} (hr : Answers source r result) :
    Answers source q result := by
  rw [Answers, h]
  exact hr

theorem Trivia.read_unfinished (h : Trivia.commentSize? cs = none) :
    Trivia.read ('-' :: '-' :: cs) =
      ⟨('-' :: '-' :: cs).length, .error .unfinishedLongComment⟩ := by
  rw [Trivia.read, Trivia.readFrom, if_neg (by decide), if_pos ⟨rfl, rfl⟩, List.tail_cons, h]
  simp only [List.length_cons]
  congr 1
  omega

theorem Trivia.read_newline {newline : List Char}
    (h : newline = ['\n'] ∨ newline = ['\r'] ∨ newline = ['\r', '\n']) (rest : List Char) :
    Trivia.read (newline ++ rest) = (Trivia.read rest).after newline.length := by
  rcases h with rfl | rfl | rfl
  · exact Trivia.read_blank rfl rest
  · exact Trivia.read_blank rfl rest
  · show Trivia.read ('\r' :: '\n' :: rest) = _
    rw [Trivia.read_blank rfl, Trivia.read_blank rfl, Scan.after, Scan.after, Scan.after,
      ← Nat.add_assoc]
    rfl

theorem nextStep_goes_blank {q : Place} (hq : q.readToken = Place.readToken ⟨ch :: ds, p⟩)
    (hblank : isBlank ch = true) :
    Goes (fun _ c' => c'.place.rest.length ≤ ds.length ∧ Before source q c') (Answers source q)
      ((nextStep ch () : Scanner (Unit ⊕ Token)) ⟨source, ⟨ch :: ds, p⟩, ""⟩) := by
  rw [nextStep, bind_ok (mark_eq ..), if_pos hblank]
  cases hline : isNewline ch with
  | false =>
    rw [bind_ok (advance_char hline)]
    exact ⟨Nat.le_refl _,
      @Before.skip source p q [ch] ds hq (.single hline ds) (Trivia.read_blank hblank ds)⟩
  | true =>
    obtain ⟨newline, rest, hnewline, hsize, hbreaks, hform⟩ := exists_newline hline ds
    have hne : newline ≠ [] := by rcases hform with rfl | rfl | rfl <;> simp
    have hle := length_behind_newline hnewline hne
    rw [bind_ok (advance_newline hline hnewline hsize)]
    rw [hnewline] at hq
    exact ⟨hle, .skip hq hbreaks (Trivia.read_newline hform rest)⟩

/-- A `-` begins a comment if another one follows, which may never end, and else is a token. -/
theorem nextStep_goes_minus {q : Place} (hq : q.readToken = Place.readToken ⟨'-' :: ds, p⟩) :
    Goes (fun _ c' => c'.place.rest.length ≤ ds.length ∧ Before source q c') (Answers source q)
      ((nextStep '-' () : Scanner (Unit ⊕ Token)) ⟨source, ⟨'-' :: ds, p⟩, ""⟩) := by
  rw [nextStep, bind_ok (mark_eq ..), if_neg (by decide), if_pos rfl, bind_ok (advance_char rfl)]
  by_cases hhead : ds.head? = some '-'
  · obtain ⟨cs, rfl⟩ := List.head?_eq_some_iff.1 hhead
    rw [bind_ok (eat_same rfl), if_pos rfl]
    cases hsize : Trivia.commentSize? cs with
    | some k =>
      have hread := Trivia.read_comment hsize
      obtain ⟨text, rest, rfl, rfl, hcomment⟩ := Trivia.exists_comment hsize
      rw [List.drop_left] at hread
      rw [bind_ok (skipComment_eq hsize), Place.skip_append]
      refine ⟨?_, @Before.skip source p q ('-' :: '-' :: text) rest hq hcomment.breaks hread⟩
      show rest.length ≤ ('-' :: (text ++ rest)).length
      rw [List.length_cons, List.length_append]
      omega
    | none =>
      obtain ⟨b, hskip⟩ := @skipComment_none source cs ((p.after ['-']).after ['-']) hsize
      rw [bind_error hskip, ← Position.after_of_no_newline rfl,
        ← Position.after_of_no_newline rfl]
      refine .of_readToken hq ⟨b, .inr ?_, ?_⟩ <;>
        simp [Place.readToken, Trivia.read_unfinished hsize, Place.skip]
  · have hends : Trivia.Ends ('-' :: ds) := by
      rintro c ⟨⟩
      exact ⟨rfl, fun _ => hhead⟩
    rw [bind_ok (eat_other hhead), if_neg Bool.false_ne_true]
    refine .last (.of_readToken hq (Mirrors.answers hends ?_))
    rw [Lexeme.read_punctuation (by decide) (by decide) rfl (by decide +kernel)]
    exact @punctuation_mirrors source ds p '-' .minus ds rfl rfl

theorem nextStep_goes {q : Place} {c : Cursor} (h : Before source q c)
    (hds : c.place.rest = ch :: ds) :
    Goes (fun _ c' => c'.place.rest.length ≤ ds.length ∧ Before source q c') (Answers source q)
      ((nextStep ch () : Scanner (Unit ⊕ Token)) c) := by
  obtain ⟨⟨rest, p⟩, b, rfl, hclean, hq⟩ := h
  obtain rfl : rest = ch :: ds := hds
  obtain rfl : b = "" := hclean.resolve_right (List.cons_ne_nil _ _)
  by_cases hblank : isBlank ch = true
  · exact nextStep_goes_blank hq hblank
  by_cases hminus : ch = '-'
  · subst hminus
    exact nextStep_goes_minus hq
  · have hends : Trivia.Ends (ch :: ds) := by
      rintro c ⟨⟩
      exact ⟨eq_false_of_ne_true hblank, fun hc => absurd hc hminus⟩
    rw [nextStep, bind_ok (mark_eq ..), if_neg hblank, if_neg hminus]
    exact .last (.of_readToken hq ((lexeme_mirrors source ds p hminus).answers hends))

theorem next_answers {c : Cursor} (h : Clean c) :
    Answers c.source c.place ((next : Scanner Token) c) := by
  refine @loop_rule _ _ _ _ _ _ (fun _ => Before c.source c.place) (Answers c.source c.place)
    ⟨c.place, c.buffer, rfl, h, rfl⟩ (fun _ c' h hnil => ?_)
    fun _ c' ch ds h hds => nextStep_goes h hds
  obtain ⟨⟨rest, p⟩, b, rfl, hclean, hq⟩ := h
  obtain rfl : rest = [] := hnil
  rw [Answers, hq]
  exact ⟨b, .inr rfl, rfl⟩

end Scanner

end LuaSource
