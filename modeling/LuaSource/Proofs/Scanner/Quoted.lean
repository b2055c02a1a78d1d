-- SUMMARY: The scanner of short strings reads what the text has there.
import LuaSource.Proofs.Scanner.Loop

/-!
# Scanning short strings

The value of a short string is collected in the buffer, one character for each escape. Every way
out empties the buffer: the value is taken where the string ends, and dropped where it fails.
-/

namespace LuaSource.Scanner

open Quoted Scanning

variable {α : Type} {source cs ds : List Char} {p : Position} {b : String} {quote ch : Char}

theorem isNewline_of_isHexDigit {c : Char} (h : isHexDigit c = true) : isNewline c = false := by
  cases hline : isNewline c with
  | false => rfl
  | true =>
    have hc : c = '\n' ∨ c = '\r' := by simpa [isNewline] using hline
    rcases hc with rfl | rfl <;> revert h <;> decide

theorem failString_eq (e : LexError) (source : List Char) (q : Place) (b : String) :
    (failString e : Scanner α) ⟨source, q, b⟩ =
      .error ⟨e, Span.empty q.position⟩ ⟨source, q, ""⟩ := rfl

/-! ## Escapes -/

/-- A scanner of escapes gives what a scan says of the text `cs`: it saves a character, or fails with
nothing in the buffer. -/
def Escapes (source cs : List Char) (p : Position) (b : String)
    (s : Scan (Except LexError Char)) (r : EStateM.Result (Located LexError) Cursor Unit) : Prop :=
  ∃ word rest, cs = word ++ rest ∧ s.size = word.length ∧ Breaks word rest ∧
    r = match s.result with
      | .ok d => .ok () ⟨source, ⟨rest, p.after word⟩, b.push d⟩
      | .error e =>
        .error ⟨e, Span.empty (p.after word)⟩ ⟨source, ⟨rest, p.after word⟩, ""⟩

theorem decimalDigits_eq (n : Nat) (source cs : List Char) :
    ∃ digits rest, cs = digits ++ rest ∧ (cs.take n).takeWhile Char.isDigit = digits ∧
      (∀ c ∈ digits, isNewline c = false) ∧ ∀ p b seen,
        (decimalDigits n seen : Scanner (List Char)) ⟨source, ⟨cs, p⟩, b⟩ =
          .ok (seen ++ digits) ⟨source, ⟨rest, p.after digits⟩, b⟩ := by
  induction n generalizing cs with
  | zero => exact ⟨[], cs, rfl, rfl, nofun, fun p b seen => by rw [List.append_nil]; rfl⟩
  | succ n ih =>
    cases cs with
    | nil => exact ⟨[], [], rfl, rfl, nofun, fun p b seen => by rw [List.append_nil]; rfl⟩
    | cons ch cs =>
      cases hdigit : ch.isDigit with
      | false =>
        refine ⟨[], ch :: cs, rfl, ?_, nofun, fun p b seen => ?_⟩
        · rw [List.take_succ_cons, List.takeWhile_cons_of_neg (by simp [hdigit])]
        · rw [decimalDigits, bind_ok (peek_eq ..), List.head?_cons]
          dsimp only
          rw [hdigit, if_neg Bool.false_ne_true, List.append_nil]
          rfl
      | true =>
        have hline := isNewline_of_isHexDigit (isHexDigit_of_isDigit hdigit)
        obtain ⟨digits, rest, rfl, htake, hall, heq⟩ := ih cs
        refine ⟨ch :: digits, rest, rfl, ?_, List.forall_mem_cons.2 ⟨hline, hall⟩, fun p b seen => ?_⟩
        · rw [List.take_succ_cons, List.takeWhile_cons_of_pos hdigit, htake]
        · rw [decimalDigits, bind_ok (peek_eq ..), List.head?_cons]
          dsimp only
          rw [if_pos hdigit, bind_ok (advance_char hline), heq,
            ← Position.after_of_no_newline hline, List.append_assoc]
          rfl

theorem decimalEscape_escapes (source cs : List Char) (p : Position) (b : String) :
    Escapes source cs p b (readDecimal cs)
      ((decimalEscape : Scanner Unit) ⟨source, ⟨cs, p⟩, b⟩) := by
  obtain ⟨digits, rest, hcs, htake, hall, heq⟩ := decimalDigits_eq 3 source cs
  refine ⟨digits, rest, hcs, ?_, .of_all hall rest, ?_⟩
  · rw [readDecimal, htake]
  · rw [decimalEscape, bind_ok (heq p b []), List.nil_append, readDecimal, htake]
    dsimp only
    split <;> rfl

/-- Where a digit is missing, the message shows what stands there instead. -/
theorem hexDigits_eq (n : Nat) (source cs : List Char) :
    ∃ digits rest, cs = digits ++ rest ∧ (cs.take n).takeWhile isHexDigit = digits ∧
      (∀ c ∈ digits, isNewline c = false) ∧ ∀ p b seen value,
        (hexDigits n seen value : Scanner Unit) ⟨source, ⟨cs, p⟩, b⟩ =
          if digits.length = n then
            .ok () ⟨source, ⟨rest, p.after digits⟩,
              b.push (Char.ofNat (digits.foldl (fun n c => n * 16 + digitValue c) value))⟩
          else
            .error ⟨.hexDigitExpected (String.ofList
              (seen ++ (digits ++ (rest.take 1).filter (!isNewline ·)))),
                Span.empty (p.after digits)⟩ ⟨source, ⟨rest, p.after digits⟩, ""⟩ := by
  induction n generalizing cs with
  | zero => exact ⟨[], cs, rfl, rfl, nofun, fun p b seen value => rfl⟩
  | succ n ih =>
    cases cs with
    | nil =>
      refine ⟨[], [], rfl, rfl, nofun, fun p b seen value => ?_⟩
      rw [List.length_nil, if_neg (Nat.succ_ne_zero n).symm, List.take_nil, List.filter_nil,
        List.append_nil, List.append_nil]
      rfl
    | cons ch cs =>
      cases hdigit : isHexDigit ch with
      | false =>
        refine ⟨[], ch :: cs, rfl, ?_, nofun, fun p b seen value => ?_⟩
        · rw [List.take_succ_cons, List.takeWhile_cons_of_neg (by simp [hdigit])]
        · rw [hexDigits, bind_ok (peek_eq ..), List.head?_cons]
          dsimp only
          rw [hdigit, if_neg Bool.false_ne_true, failString_eq, List.length_nil,
            if_neg (Nat.succ_ne_zero n).symm]
          cases hline : isNewline ch <;> simp [hline]
      | true =>
        have hline := isNewline_of_isHexDigit hdigit
        obtain ⟨digits, rest, rfl, htake, hall, heq⟩ := ih cs
        refine ⟨ch :: digits, rest, rfl, ?_, List.forall_mem_cons.2 ⟨hline, hall⟩,
          fun p b seen value => ?_⟩
        · rw [List.take_succ_cons, List.takeWhile_cons_of_pos hdigit, htake]
        · rw [hexDigits, bind_ok (peek_eq ..), List.head?_cons]
          dsimp only
          rw [if_pos hdigit, bind_ok (advance_char hline), bind_ok (byte_eq ..),
            bind_ok (byte_eq ..), heq, ← Position.after_of_no_newline hline, List.append_assoc,
            List.length_cons]
          simp only [Nat.add_right_cancel_iff, List.foldl_cons, List.cons_append, List.nil_append]

theorem hexDigits_escapes (source cs : List Char) (p : Position) (b : String) :
    Escapes source cs p b (readHex cs)
      ((hexDigits 2 ['\\', 'x'] 0 : Scanner Unit) ⟨source, ⟨cs, p⟩, b⟩) := by
  obtain ⟨digits, rest, rfl, htake, hall, heq⟩ := hexDigits_eq 2 source cs
  refine ⟨digits, rest, rfl, ?_, .of_all hall rest, ?_⟩
  · rw [readHex, htake]
  · rw [heq, readHex, htake]
    dsimp only
    rw [List.drop_left]
    split <;> rfl

theorem Escapes.after {s : Scan (Except LexError Char)}
    {r : EStateM.Result (Located LexError) Cursor Unit} (hch : isNewline ch = false)
    (h : Escapes source cs (p.after [ch]) b s r) : Escapes source (ch :: cs) p b (s.after 1) r := by
  obtain ⟨word, rest, rfl, hsize, hbreaks, hr⟩ := h
  refine ⟨ch :: word, rest, rfl, ?_, ?_, ?_⟩
  · rw [Scan.after, hsize, List.length_cons, Nat.add_comm]
  · cases word with
    | nil => exact .single hch rest
    | cons d word => exact hbreaks
  · rw [hr, ← Position.after_of_no_newline hch]
    rfl

theorem escape_escapes (source cs : List Char) (p : Position) (b : String) :
    Escapes source cs p b (readEscape cs) ((escape : Scanner Unit) ⟨source, ⟨cs, p⟩, b⟩) := by
  cases cs with
  | nil => exact ⟨[], [], rfl, rfl, .nil [], rfl⟩
  | cons ch cs =>
    rw [escape, bind_ok (peek_eq ..), List.head?_cons, readEscape]
    dsimp only
    cases hletter : letters.lookup ch with
    | some d =>
      have hline : isNewline ch = false := by
        cases hline : isNewline ch with
        | false => rfl
        | true =>
          have hch : ch = '\n' ∨ ch = '\r' := by simpa [isNewline] using hline
          rcases hch with rfl | rfl <;> cases hletter
      dsimp only
      rw [bind_ok (advance_char hline)]
      exact ⟨[ch], cs, rfl, rfl, .single hline cs, rfl⟩
    | none =>
      dsimp only
      cases hline : isNewline ch with
      | true =>
        obtain ⟨newline, rest, hnewline, hsize, hbreaks, -⟩ := exists_newline hline cs
        rw [if_pos rfl, if_pos rfl, bind_ok (advance_newline hline hnewline hsize)]
        exact ⟨newline, rest, hnewline, hsize.symm, hbreaks, rfl⟩
      | false =>
        rw [if_neg Bool.false_ne_true, if_neg Bool.false_ne_true]
        by_cases hx : ch = 'x'
        · rw [if_pos hx, if_pos hx, bind_ok (advance_char hline)]
          exact (hexDigits_escapes source cs _ b).after hline
        · rw [if_neg hx, if_neg hx]
          by_cases hdigit : ch.isDigit = true
          · rw [if_pos hdigit, if_pos hdigit]
            exact decimalEscape_escapes source (ch :: cs) p b
          · rw [if_neg hdigit, if_neg hdigit, bind_ok (advance_char hline)]
            exact ⟨[ch], cs, rfl, rfl, .single hline cs, rfl⟩

/-! ## Strings -/

/-- What an escape takes up counts as read. -/
theorem readBody_skip (quote : Char) (raw value : List Char) (word rest : List Char) :
    readBody quote word.length raw value (word ++ rest) =
      readBody quote 0 (word.reverse ++ raw) value rest := by
  induction word generalizing raw with
  | nil => rfl
  | cons c word ih =>
    rw [List.length_cons, List.cons_append, readBody, ih, List.reverse_cons, List.append_assoc]
    rfl

/-- The cursor is inside the string `text`: what it has passed of it stands for the characters in
the buffer. -/
def InString (source : List Char) (quote : Char) (text : List Char) (p : Position)
    (s : Scan (Except LexError (List Char))) (c : Cursor) : Prop :=
  ∃ passed rest value, text = passed ++ rest ∧ Breaks passed rest ∧
    c = ⟨source, ⟨rest, p.after passed⟩, String.ofList value.reverse⟩ ∧
    s = readBody quote 0 passed.reverse value rest

/-- What the scanner of a string gives behind its opening quote. -/
def StringResult (source : List Char) (q : Place) (s : Scan (Except LexError (List Char))) :
    EStateM.Result (Located LexError) Cursor Unit :=
  match s.result with
  | .ok v => .ok () ⟨source, q.skip s.size, String.ofList v⟩
  | .error e => .error ⟨e, Span.empty (q.skip s.size).position⟩ ⟨source, q.skip s.size, ""⟩

theorem InString.pass {text passed piece rest value : List Char}
    {s : Scan (Except LexError (List Char))} (htext : text = passed ++ (piece ++ rest))
    (hbreaks : Breaks passed (piece ++ rest)) (hpiece : piece ≠ []) (hrest : Breaks piece rest)
    (hs : s = readBody quote 0 (piece.reverse ++ passed.reverse) value rest) :
    InString source quote text p s
      ⟨source, ⟨rest, (p.after passed).after piece⟩, String.ofList value.reverse⟩ := by
  refine ⟨passed ++ piece, rest, value, ?_, hrest.append hpiece, ?_, ?_⟩
  · rw [htext, List.append_assoc]
  · rw [Position.after_append_of_breaks (hbreaks.left)]
  · rw [hs, List.reverse_append]

/-- How a string ends that `passed` and then `piece` are passed of. -/
theorem stringResult_append {passed piece rest : List Char}
    (hbreaks : Breaks passed (piece ++ rest)) (r : Except LexError (List Char)) :
    StringResult source ⟨passed ++ (piece ++ rest), p⟩ ⟨passed.length + piece.length, r⟩ =
      match r with
      | .ok v => .ok () ⟨source, ⟨rest, (p.after passed).after piece⟩, String.ofList v⟩
      | .error e => .error ⟨e, Span.empty ((p.after passed).after piece)⟩
          ⟨source, ⟨rest, (p.after passed).after piece⟩, ""⟩ := by
  rw [StringResult]
  dsimp only
  rw [Place.skip_append_add hbreaks, Place.skip_append]

/-- A step over an escape goes on behind it or, if it is wrong, ends the string there. -/
theorem quotedStep_escape {passed value : List Char} {s : Scan (Except LexError (List Char))}
    (hquote : quote = '"' ∨ quote = '\'') (hbreaks : Breaks passed ('\\' :: ds))
    (hs : s = readBody quote 0 passed.reverse value ('\\' :: ds)) :
    Goes (fun _ c' => c'.place.rest.length ≤ ds.length ∧
        InString source quote (passed ++ '\\' :: ds) p s c')
      (· = StringResult source ⟨passed ++ '\\' :: ds, p⟩ s)
      ((quotedStep quote ⟨passed ++ '\\' :: ds, p⟩ '\\' () : Scanner (Unit ⊕ Unit))
        ⟨source, ⟨'\\' :: ds, p.after passed⟩, String.ofList value.reverse⟩) := by
  have hline : isNewline '\\' = false := rfl
  have hne : '\\' ≠ quote := by
    rintro rfl
    revert hquote
    decide
  rw [readBody, if_neg hne, if_pos rfl] at hs
  rw [quotedStep, hline, if_neg Bool.false_ne_true, if_pos rfl, bind_ok (advance_char hline)]
  obtain ⟨word, rest, rfl, hsize, hword, hr⟩ := escape_escapes source ds
    ((p.after passed).after ['\\']) (String.ofList value.reverse)
  generalize readEscape (word ++ rest) = e at hs hsize hr
  obtain ⟨n, result⟩ := e
  obtain rfl : n = word.length := hsize
  rw [← Position.after_of_no_newline hline] at hr
  cases result with
  | error e =>
    have hlength : passed.reverse.length + 1 + word.length =
        passed.length + ('\\' :: word).length := by
      rw [List.length_reverse, List.length_cons]
      omega
    rw [bind_error hr, hs, hline, if_neg Bool.false_ne_true]
    dsimp only
    rw [hlength]
    exact (@stringResult_append source p passed ('\\' :: word) rest hbreaks (.error _)).symm
  | ok d =>
    rw [hline, if_neg Bool.false_ne_true] at hs
    dsimp only at hs
    rw [readBody_skip] at hs
    rw [bind_ok hr, push_eq_append, ← String.ofList_append, ← List.reverse_cons]
    have hpiece : Breaks ('\\' :: word) rest := by
      cases word with
      | nil => exact .single hline rest
      | cons d word => exact hword
    refine ⟨by simp, .pass rfl hbreaks (List.cons_ne_nil _ _) hpiece ?_⟩
    rw [hs, List.reverse_cons, List.append_assoc]
    rfl

theorem quotedStep_goes {text : List Char} {s : Scan (Except LexError (List Char))} {c : Cursor}
    (hquote : quote = '"' ∨ quote = '\'') (h : InString source quote text p s c)
    (hds : c.place.rest = ch :: ds) :
    Goes (fun _ c' => c'.place.rest.length ≤ ds.length ∧ InString source quote text p s c')
      (· = StringResult source ⟨text, p⟩ s)
      ((quotedStep quote ⟨text, p⟩ ch () : Scanner (Unit ⊕ Unit)) c) := by
  obtain ⟨passed, rest, value, rfl, hbreaks, rfl, hs⟩ := h
  obtain rfl : rest = ch :: ds := hds
  by_cases hescape : ch = '\\'
  · subst hescape
    exact quotedStep_escape hquote hbreaks hs
  rw [readBody] at hs
  rw [quotedStep]
  cases hline : isNewline ch with
  | true =>
    have hne : ch ≠ quote := by
      rintro rfl
      rcases hquote with rfl | rfl <;> cases hline
    rw [if_neg hne, if_neg hescape, if_pos hline, List.reverse_reverse, List.length_reverse] at hs
    rw [if_pos rfl, bind_ok (sliceFrom_eq ..), hs]
    exact (@stringResult_append source p passed [] (ch :: ds) hbreaks (.error _)).symm
  | false =>
    rw [hline, if_neg hescape, if_neg Bool.false_ne_true] at hs
    rw [if_neg Bool.false_ne_true, if_neg hescape]
    by_cases hclose : ch = quote
    · rw [if_pos hclose] at hs
      rw [if_pos hclose, bind_ok (advance_char hline), hs, List.length_reverse]
      exact (@stringResult_append source p passed [ch] ds hbreaks (.ok _)).symm
    · rw [if_neg hclose] at hs
      rw [if_neg hclose, bind_ok (saveAndAdvance_char hline), push_eq_append,
        ← String.ofList_append, ← List.reverse_cons]
      exact ⟨Nat.le_refl _, .pass rfl hbreaks (List.cons_ne_nil _ _) (.single hline ds) hs⟩

theorem loop_quotedStep {text : List Char} (hquote : quote = '"' ∨ quote = '\'')
    (htext : text = quote :: cs) :
    (loop (quotedStep quote ⟨text, p⟩)
        (fun _ => failString (.unfinishedString Symbol.eof.spelling)) () : Scanner Unit)
        ⟨source, ⟨cs, p.after [quote]⟩, ""⟩ =
      StringResult source ⟨text, p⟩ (read quote cs) := by
  have hline : isNewline quote = false := by rcases hquote with rfl | rfl <;> decide
  refine @loop_rule _ _ _ _ _ _ (fun _ => InString source quote text p (read quote cs))
    (· = _) ⟨[quote], cs, [], htext, .single hline cs, rfl, rfl⟩ (fun _ c h hnil => ?_)
    fun _ c ch ds h hds => quotedStep_goes hquote h hds
  obtain ⟨passed, rest, value, rfl, hbreaks, rfl, hs⟩ := h
  obtain rfl : rest = [] := hnil
  rw [hs, readBody, List.length_reverse]
  exact (@stringResult_append source p passed [] [] hbreaks (.error _)).symm

theorem quoted_mirrors (source cs : List Char) (p : Position)
    (hquote : quote = '"' ∨ quote = '\'') :
    Mirrors source ⟨quote :: cs, p⟩ (Lexeme.readQuoted quote cs)
      ((quoted quote ⟨quote :: cs, p⟩ : Scanner Token) ⟨source, ⟨quote :: cs, p⟩, ""⟩) := by
  have hline : isNewline quote = false := by rcases hquote with rfl | rfl <;> decide
  have hloop := @loop_quotedStep source cs p quote _ hquote rfl
  rw [quoted, bind_ok (advance_char hline), Lexeme.readQuoted]
  generalize read quote cs = s at hloop
  obtain ⟨n, result⟩ := s
  cases result with
  | ok v =>
    rw [bind_ok hloop, bind_ok (takeBuffer_eq ..)]
    rfl
  | error e =>
    rw [bind_error hloop]
    exact ⟨"", rfl, .inl rfl⟩

end LuaSource.Scanner
