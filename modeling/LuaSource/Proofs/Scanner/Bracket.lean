-- SUMMARY: Scanners of long brackets and comments read what the text has there.
import LuaSource.Proofs.Scanner.Loop

/-!
# Scanning long brackets

A long bracket ends with the first closer of its level. The scanner looks at every `]` for it, and
puts back into the body what turns out to be none.
-/

namespace LuaSource

/-! ## Values of bodies -/

theorem unifyNewlines_append {cs ds : List Char} (h : Breaks cs ds) :
    unifyNewlines (cs ++ ds) = unifyNewlines cs ++ unifyNewlines ds := by
  induction cs with
  | nil => rfl
  | cons c cs ih =>
    by_cases hc : c = '\r'
    · subst hc
      cases cs with
      | nil =>
        have hhead : ds.head? ≠ some '\n' := h rfl
        simp [unifyNewlines, hhead]
      | cons d cs =>
        have ih := ih h
        have hreturn : ∀ es, unifyNewlines ('\r' :: d :: es) =
            if d = '\n' then unifyNewlines (d :: es) else '\n' :: unifyNewlines (d :: es) := by
          intro es
          rw [unifyNewlines, if_pos rfl, List.head?_cons]
          simp only [Option.some.injEq]
        rw [List.cons_append, List.cons_append, hreturn, hreturn, ← List.cons_append, ih]
        split <;> rfl
    · have htail : Breaks cs ds := by
        cases cs with
        | nil => exact .nil ds
        | cons d cs => exact h
      simp [unifyNewlines, hc, ih htail]

namespace LongBracket

theorem exists_equals (cs : List Char) :
    ∃ rest, cs = List.replicate (equalsRun cs) '=' ++ rest ∧ rest.head? ≠ some '=' := by
  obtain ⟨run, rest, rfl, hrun, hall, hrest⟩ := exists_takeWhile (· == '=') cs
  have hreplicate : run = List.replicate run.length '=' :=
    List.eq_replicate_iff.2 ⟨rfl, fun c hc => eq_of_beq (hall c hc)⟩
  refine ⟨rest, ?_, fun hhead => ?_⟩
  · rw [equalsRun, hrun, ← hreplicate]
  · rw [hhead] at hrest
    cases hrest

variable {level : Nat} {cs rest : List Char}

theorem breaks_opener (level : Nat) (rest : List Char) : Breaks (opener level) rest :=
  @Breaks.append ('[' :: List.replicate level '=') ['['] rest (.single (by decide) rest)
    (List.cons_ne_nil _ _)

theorem opened?_of_head (h : cs.head? ≠ some '[') : opened? cs = none := by
  cases cs with
  | nil => rfl
  | cons c cs =>
    rw [opened?, if_neg]
    rintro ⟨rfl, -⟩
    exact h rfl

theorem before?_cons_of_ne {c : Char} (h : c ≠ ']') :
    before? (closer level) 0 (c :: cs) = (before? (closer level) 0 cs).map (1 + ·) := by
  have hfirst : (closer level).isPrefixOf (c :: cs) = false := by
    rw [closer, List.isPrefixOf, beq_false_of_ne (Ne.symm h), Bool.false_and]
  rw [before?, hfirst, if_neg Bool.false_ne_true, before?_add]

/-- The closer begins where a `]` stands. -/
theorem before?_append {run : List Char} (h : ∀ c ∈ run, c ≠ ']') :
    before? (closer level) 0 (run ++ cs) = (before? (closer level) 0 cs).map (run.length + ·) := by
  induction run with
  | nil => simp
  | cons c run ih =>
    obtain ⟨hc, hrun⟩ := List.forall_mem_cons.1 h
    rw [List.cons_append, before?_cons_of_ne hc, ih hrun, Option.map_map]
    congr 1
    funext n
    simp only [Function.comp_apply, List.length_cons]
    omega

theorem before?_closer (level : Nat) (rest : List Char) :
    before? (closer level) 0 (closer level ++ rest) = some 0 := by
  have hprefix : (closer level).isPrefixOf (closer level ++ rest) = true :=
    List.isPrefixOf_iff_prefix.2 ⟨rest, rfl⟩
  rw [closer, List.cons_append] at hprefix ⊢
  rw [before?, if_pos hprefix]

/-- A `]` with too many or too few equals signs, or with no second `]`, begins no closer. -/
theorem before?_of_not_closer {n : Nat} (hrest : rest.head? ≠ some '=')
    (h : ¬(n = level ∧ rest.head? = some ']')) :
    before? (closer level) 0 (']' :: (List.replicate n '=' ++ rest)) =
      (before? (closer level) 0 rest).map (n + 1 + ·) := by
  have hnot : (closer level).isPrefixOf (']' :: (List.replicate n '=' ++ rest)) = false := by
    refine eq_false_of_ne_true fun hprefix => h ?_
    obtain ⟨behind, hbehind⟩ := List.isPrefixOf_iff_prefix.1 hprefix
    have htail : List.replicate level '=' ++ (']' :: behind) = List.replicate n '=' ++ rest := by
      simpa [closer] using hbehind
    have hlevel := equalsRun_replicate_append level (']' :: behind) (by simp)
    rw [htail, equalsRun_replicate_append n rest hrest] at hlevel
    subst hlevel
    rw [← List.append_cancel_left htail]
    exact ⟨rfl, rfl⟩
  rw [before?, hnot, if_neg Bool.false_ne_true, before?_add, before?_append, Option.map_map]
  · congr 1
    funext m
    simp only [Function.comp_apply, List.length_replicate]
    omega
  · intro c hc
    rw [List.eq_of_mem_replicate hc]
    decide

end LongBracket

namespace Scanner

open LongBracket Scanning

variable {source cs : List Char} {p : Position} {b : String} {level : Nat} {e : LexError}

/-! ## Openers -/

theorem openBracket_opener :
    (openBracket : Scanner (Except Nat Nat)) ⟨source, ⟨opener level ++ cs, p⟩, b⟩ =
      .ok (.ok level) ⟨source, ⟨cs, p.after (opener level)⟩, b⟩ := by
  have htext : opener level ++ cs = '[' :: (List.replicate level '=' ++ '[' :: cs) := by
    simp [opener]
  rw [htext, openBracket, bind_ok (advance_char (by decide)), bind_ok (equals_eq (by simp)),
    bind_ok (eat_same (by decide)), ← Position.after_of_no_newline (by decide),
    ← Position.after_append _ _ _ (by decide)]
  rfl

theorem openBracket_none (h : opened? ('[' :: cs) = none) :
    (openBracket : Scanner (Except Nat Nat)) ⟨source, ⟨'[' :: cs, p⟩, b⟩ =
      .ok (.error (equalsRun cs))
      ⟨source, ⟨cs.drop (equalsRun cs), p.after ('[' :: cs.take (equalsRun cs))⟩, b⟩ := by
  obtain ⟨rest, hcs, hrest⟩ := exists_equals cs
  generalize equalsRun cs = n at hcs
  subst hcs
  have hhead : rest.head? ≠ some '[' := by
    intro hhead
    rw [opened?, equalsRun_replicate_append n rest hrest, if_pos] at h
    · cases h
    · exact ⟨rfl, by rw [List.drop_left' (List.length_replicate ..)]; exact hhead⟩
  rw [openBracket, bind_ok (advance_char (by decide)), bind_ok (equals_eq hrest),
    bind_ok (eat_other hhead), ← Position.after_of_no_newline (by decide),
    List.drop_left' (List.length_replicate ..), List.take_left' (List.length_replicate ..)]
  rfl

/-! ## Bodies -/

theorem saveEquals_eq (n : Nat) (c : Cursor) :
    (saveEquals n : Scanner Unit) c = .ok () { c with
      buffer := c.buffer ++ String.ofList (List.replicate n '=') } := by
  induction n generalizing c with
  | zero => simp [saveEquals, pure, EStateM.pure]
  | succ n ih =>
    rw [saveEquals, bind_ok (save_eq ..), ih, List.replicate_succ, ← push_append]

/-! ### Steps -/

theorem bodyStep_closer :
    (bodyStep level ']' () : Scanner (Unit ⊕ String)) ⟨source, ⟨closer level ++ cs, p⟩, b⟩ =
      .ok (.inr b) ⟨source, ⟨cs, p.after (closer level)⟩, ""⟩ := by
  have htext : closer level ++ cs = ']' :: (List.replicate level '=' ++ ']' :: cs) := by
    simp [closer]
  rw [htext, bodyStep, if_pos rfl, bind_ok (advance_char (by decide)),
    bind_ok (equals_eq (by simp)), ← Position.after_of_no_newline (by decide), if_pos rfl,
    bind_ok (eat_same (by decide)), if_pos rfl, bind_ok (takeBuffer_eq ..),
    ← Position.after_append _ _ _ (by decide)]
  rfl

theorem bodyStep_bracket {n : Nat} (hhead : cs.head? ≠ some '=')
    (hcloser : ¬(n = level ∧ cs.head? = some ']')) :
    (bodyStep level ']' () : Scanner (Unit ⊕ String))
        ⟨source, ⟨']' :: (List.replicate n '=' ++ cs), p⟩, b⟩ =
      .ok (.inl ()) ⟨source, ⟨cs, p.after (']' :: List.replicate n '=')⟩,
        b ++ String.ofList (']' :: List.replicate n '=')⟩ := by
  have hfalse : (if n = level then eat ']' else pure false : Scanner Bool)
      ⟨source, ⟨cs, p.after (']' :: List.replicate n '=')⟩, b⟩ =
      .ok false ⟨source, ⟨cs, p.after (']' :: List.replicate n '=')⟩, b⟩ := by
    split
    · next hn => exact eat_other fun hclose => hcloser ⟨hn, hclose⟩
    · rfl
  rw [bodyStep, if_pos rfl, bind_ok (advance_char (by decide)), bind_ok (equals_eq hhead),
    ← Position.after_of_no_newline (by decide), bind_ok hfalse, if_neg Bool.false_ne_true,
    bind_ok (save_eq ..), bind_ok (saveEquals_eq n _), ← push_append]
  rfl

theorem bodyStep_char {ch : Char} (hch : ch ≠ ']') (hline : isNewline ch = false) :
    (bodyStep level ch () : Scanner (Unit ⊕ String)) ⟨source, ⟨ch :: cs, p⟩, b⟩ =
      .ok (.inl ()) ⟨source, ⟨cs, p.after [ch]⟩, b ++ String.ofList [ch]⟩ := by
  rw [bodyStep, if_neg hch, bind_ok (saveAndAdvance_char hline), push_eq_append]
  rfl

theorem bodyStep_newline {ch : Char} {newline ds : List Char} (hch : ch ≠ ']')
    (hline : isNewline ch = true) (hcs : ch :: cs = newline ++ ds)
    (hsize : newline.length = newlineSize (ch :: cs)) :
    (bodyStep level ch () : Scanner (Unit ⊕ String)) ⟨source, ⟨ch :: cs, p⟩, b⟩ =
      .ok (.inl ()) ⟨source, ⟨ds, p.after newline⟩, b ++ String.ofList ['\n']⟩ := by
  rw [bodyStep, if_neg hch, bind_ok (saveAndAdvance_newline hline hcs hsize), push_eq_append]
  rfl

/-! ### Loops -/

/-- The cursor is inside the body `cs`, what it has passed there is in the buffer, and the closer is
still to come if there is one. -/
def InBody (source : List Char) (level : Nat) (cs : List Char) (p : Position) (b : String)
    (c : Cursor) : Prop :=
  ∃ passed rest, cs = passed ++ rest ∧ Breaks passed rest ∧
    c = ⟨source, ⟨rest, p.after passed⟩, b ++ String.ofList (unifyNewlines passed)⟩ ∧
    before? (closer level) 0 cs = (before? (closer level) 0 rest).map (passed.length + ·)

theorem InBody.pass {passed piece rest : List Char} (hcs : cs = passed ++ (piece ++ rest))
    (hbreaks : Breaks passed (piece ++ rest)) (hpiece : piece ≠ []) (hrest : Breaks piece rest)
    (hbefore : before? (closer level) 0 cs =
      (before? (closer level) 0 (piece ++ rest)).map (passed.length + ·))
    (hpass : before? (closer level) 0 (piece ++ rest) =
      (before? (closer level) 0 rest).map (piece.length + ·)) :
    InBody source level cs p b ⟨source, ⟨rest, (p.after passed).after piece⟩,
      b ++ String.ofList (unifyNewlines passed) ++ String.ofList (unifyNewlines piece)⟩ := by
  have hfirst : Breaks passed piece := hbreaks.left
  refine ⟨passed ++ piece, rest, ?_, hrest.append hpiece, ?_, ?_⟩
  · rw [hcs, List.append_assoc]
  · rw [Position.after_append_of_breaks hfirst, unifyNewlines_append hfirst, String.ofList_append,
      String.append_assoc]
  · rw [hbefore, hpass, Option.map_map]
    congr 1
    funext n
    simp only [Function.comp_apply, List.length_append]
    omega

/-- What a scanner of a body gives that begins with `b` in the buffer. -/
def BodyResult (source : List Char) (level : Nat) (e : LexError) (cs : List Char) (p : Position)
    (b : String) (r : EStateM.Result (Located LexError) Cursor String) : Prop :=
  match before? (closer level) 0 cs with
  | some n => r = .ok (b ++ String.ofList (unifyNewlines (cs.take n)))
      ⟨source, ⟨cs.drop (n + (level + 2)), p.after (cs.take (n + (level + 2)))⟩, ""⟩
  | none => ∃ b', r = .error ⟨e, Span.empty (p.after cs)⟩ ⟨source, ⟨[], p.after cs⟩, b'⟩

/-- At the closer the body is what was passed before it. -/
theorem bodyResult_of_closer {passed rest : List Char} (hcs : cs = passed ++ (closer level ++ rest))
    (hbefore : before? (closer level) 0 cs =
      (before? (closer level) 0 (closer level ++ rest)).map (passed.length + ·)) :
    BodyResult source level e cs p b (.ok (b ++ String.ofList (unifyNewlines passed))
      ⟨source, ⟨rest, (p.after passed).after (closer level)⟩, ""⟩) := by
  have hbreaks : Breaks passed (closer level) := .of_head (by simp [closer])
  have hlength : (passed ++ closer level).length = passed.length + (level + 2) := by
    rw [List.length_append, length_closer]
  rw [before?_closer, Option.map_some, Nat.add_zero] at hbefore
  rw [BodyResult, hbefore]
  dsimp only
  rw [← hlength, hcs, List.take_left, ← List.append_assoc, List.take_left, List.drop_left,
    Position.after_append_of_breaks hbreaks]

/-- A `]` is the start of the closer, or it is passed with the equals signs behind it. -/
theorem bodyStep_goes_bracket {c : Cursor} {ds : List Char} (h : InBody source level cs p b c)
    (hds : c.place.rest = ']' :: ds) :
    Goes (fun _ c' => c'.place.rest.length ≤ ds.length ∧ InBody source level cs p b c')
      (BodyResult source level e cs p b)
      ((bodyStep level ']' () : Scanner (Unit ⊕ String)) c) := by
  obtain ⟨passed, rest, hcs, hbreaks, rfl, hbefore⟩ := h
  obtain rfl : rest = ']' :: ds := hds
  obtain ⟨rest, hrest, hhead⟩ := exists_equals ds
  generalize equalsRun ds = n at hrest
  subst hrest
  by_cases hcloser : n = level ∧ rest.head? = some ']'
  · obtain ⟨rfl, hclose⟩ := hcloser
    obtain ⟨rest, rfl⟩ := List.head?_eq_some_iff.1 hclose
    have htext : ']' :: (List.replicate n '=' ++ ']' :: rest) = closer n ++ rest := by
      simp [closer]
    rw [htext] at hcs hbefore ⊢
    rw [bodyStep_closer]
    exact bodyResult_of_closer hcs hbefore
  · have hlast : Breaks (']' :: List.replicate n '=') rest := by
      intro hlast
      have hmem := List.mem_of_getLast? hlast
      simp at hmem
    have hunify : unifyNewlines (']' :: List.replicate n '=') = ']' :: List.replicate n '=' :=
      unifyNewlines_of_no_return (by simp)
    have hin := @InBody.pass source cs p b level passed (']' :: List.replicate n '=') rest hcs
      hbreaks (List.cons_ne_nil _ _) hlast hbefore
      (by simpa [Nat.add_comm] using before?_of_not_closer hhead hcloser)
    rw [hunify] at hin
    rw [bodyStep_bracket hhead hcloser]
    exact ⟨by simp, hin⟩

theorem bodyStep_goes {c : Cursor} {ch : Char} {ds : List Char}
    (h : InBody source level cs p b c) (hds : c.place.rest = ch :: ds) :
    Goes (fun _ c' => c'.place.rest.length ≤ ds.length ∧ InBody source level cs p b c')
      (BodyResult source level e cs p b) ((bodyStep level ch () : Scanner (Unit ⊕ String)) c) := by
  by_cases hch : ch = ']'
  · subst hch
    exact bodyStep_goes_bracket h hds
  obtain ⟨passed, rest, hcs, hbreaks, rfl, hbefore⟩ := h
  obtain rfl : rest = ch :: ds := hds
  cases hline : isNewline ch with
  | false =>
    have hunify : unifyNewlines [ch] = [ch] := by
      refine unifyNewlines_of_no_return fun hmem => ?_
      rw [← List.mem_singleton.1 hmem] at hline
      cases hline
    have hin := @InBody.pass source cs p b level passed [ch] ds hcs hbreaks
      (List.cons_ne_nil _ _) (.single hline ds) hbefore (before?_cons_of_ne hch)
    rw [hunify] at hin
    rw [bodyStep_char hch hline]
    exact ⟨Nat.le_refl _, hin⟩
  | true =>
    obtain ⟨newline, rest, hnewline, hsize, hlast, hform⟩ := exists_newline hline ds
    have hne : newline ≠ [] := by rcases hform with rfl | rfl | rfl <;> simp
    have hunify : unifyNewlines newline = ['\n'] := by
      rcases hform with rfl | rfl | rfl <;> rfl
    have hbrackets : ∀ c ∈ newline, c ≠ ']' := by
      rcases hform with rfl | rfl | rfl <;> simp
    have hle := length_behind_newline hnewline hne
    rw [bodyStep_newline hch hline hnewline hsize]
    rw [hnewline] at hcs hbreaks hbefore
    have hin := @InBody.pass source cs p b level passed newline rest hcs hbreaks hne hlast
      hbefore (before?_append hbrackets)
    rw [hunify] at hin
    exact ⟨hle, hin⟩

theorem loop_bodyStep (cs : List Char) :
    BodyResult source level e cs p b
      ((loop (bodyStep level) (fun _ => fail e) () : Scanner String) ⟨source, ⟨cs, p⟩, b⟩) := by
  refine loop_rule (I := fun _ => InBody source level cs p b) ?_ (fun _ c h hnil => ?_)
    fun _ c ch ds h hds => bodyStep_goes h hds
  · refine ⟨[], cs, rfl, nofun, by simp [unifyNewlines], ?_⟩
    simp
  · obtain ⟨passed, rest, rfl, -, rfl, hbefore⟩ := h
    obtain rfl : rest = [] := hnil
    have hnone : before? (closer level) 0 [] = none := rfl
    rw [hnone, Option.map_none] at hbefore
    rw [BodyResult, hbefore]
    exact ⟨_, by rw [List.append_nil]; rfl⟩

/-- A newline at the head of a body is passed, and is not part of its value. -/
theorem skipNewline_eq (source cs : List Char) (p : Position) (b : String) :
    ∃ newline rest, cs = newline ++ rest ∧ Breaks newline rest ∧ (∀ c ∈ newline, c ≠ ']') ∧
      (∀ n, newlineSize (newline ++ rest.take n) = newline.length) ∧
      (skipNewline : Scanner Unit) ⟨source, ⟨cs, p⟩, b⟩ =
        .ok () ⟨source, ⟨rest, p.after newline⟩, b⟩ := by
  have hskip : (skipNewline : Scanner Unit) ⟨source, ⟨cs, p⟩, b⟩ =
      (if cs.head?.any isNewline then advance else pure () : Scanner Unit)
        ⟨source, ⟨cs, p⟩, b⟩ := by
    rw [skipNewline, bind_ok (peek_eq ..)]
  by_cases hcs : cs.head?.any isNewline = true
  · obtain ⟨ch, hhead, hline⟩ := (Option.any_eq_true _ _).1 hcs
    obtain ⟨cs, rfl⟩ := List.head?_eq_some_iff.1 hhead
    obtain ⟨newline, rest, hnewline, hsize, hbreaks, hform⟩ := exists_newline hline cs
    rw [if_pos hcs, advance_newline hline hnewline hsize] at hskip
    refine ⟨newline, rest, hnewline, hbreaks, ?_, fun n => ?_, hskip⟩
    · rcases hform with rfl | rfl | rfl <;> simp
    · rcases hform with rfl | rfl | rfl
      · rfl
      · have hhead := hbreaks.take n rfl
        simp [newlineSize, hhead]
      · rfl
  · rw [if_neg hcs] at hskip
    refine ⟨[], cs, rfl, .nil cs, List.forall_mem_nil _, fun n => ?_, hskip⟩
    cases n with
    | zero => rfl
    | succ n =>
      cases cs with
      | nil => rfl
      | cons c cs => exact (newlineSize_eq_zero_iff _ _).2 (by simpa using hcs)

variable {s : Scan (List Char)}

theorem bracketBody_eq (h : read? level cs = some s) :
    (bracketBody level e : Scanner String) ⟨source, ⟨cs, p⟩, b⟩ =
      .ok (b ++ String.ofList s.result) ⟨source, Place.skip ⟨cs, p⟩ s.size, ""⟩ := by
  obtain ⟨newline, rest, rfl, hbreaks, hbrackets, hsize, hskip⟩ := skipNewline_eq source cs p b
  have hloop := @loop_bodyStep source (p.after newline) b level e rest
  rw [read?, before?_append hbrackets, Option.map_map] at h
  obtain ⟨n, hn, rfl⟩ := Option.map_eq_some_iff.1 h
  rw [BodyResult, hn] at hloop
  rw [bracketBody, bind_ok hskip, hloop]
  simp only [Function.comp_apply]
  rw [Nat.add_assoc, Place.skip_append_add hbreaks, List.take_length_add_append, value, hsize,
    List.drop_left]
  rfl

theorem bracketBody_none (h : read? level cs = none) :
    ∃ b', (bracketBody level e : Scanner String) ⟨source, ⟨cs, p⟩, b⟩ =
      .error ⟨e, Span.empty (p.after cs)⟩ ⟨source, ⟨[], p.after cs⟩, b'⟩ := by
  obtain ⟨newline, rest, rfl, hbreaks, hbrackets, -, hskip⟩ := skipNewline_eq source cs p b
  have hloop := @loop_bodyStep source (p.after newline) b level e rest
  rw [read?, before?_append hbrackets, Option.map_map] at h
  rw [BodyResult, Option.map_eq_none_iff.1 h] at hloop
  obtain ⟨b', hloop⟩ := hloop
  refine ⟨b', ?_⟩
  rw [bracketBody, bind_ok hskip, hloop, Position.after_append_of_breaks hbreaks]

/-! ## Comments -/

theorem skipLine_eq (source : List Char) (cs : List Char) (p : Position) (b : String) :
    (skipLine : Scanner Unit) ⟨source, ⟨cs, p⟩, b⟩ =
      .ok () ⟨source, Place.skip ⟨cs, p⟩ (cs.takeWhile (!isNewline ·)).length, b⟩ := by
  obtain ⟨line, rest, rfl, hline, hall, hrest⟩ := exists_takeWhile (!isNewline ·) cs
  rw [hline, Place.skip_append]
  exact advanceWhile_eq (fun ch hch => by simpa using hch) hall hrest

/-- A comment is skipped as far as it reaches. -/
theorem skipComment_eq {k : Nat} (h : Trivia.commentSize? cs = some k) :
    (skipComment : Scanner Unit) ⟨source, ⟨cs, p⟩, ""⟩ =
      .ok () ⟨source, Place.skip ⟨cs, p⟩ k, ""⟩ := by
  rw [skipComment, bind_ok (peek_eq ..)]
  rw [Trivia.commentSize?] at h
  by_cases hhead : cs.head? = some '['
  · rw [if_pos hhead, bind_ok (mark_eq ..)]
    cases hopened : opened? cs with
    | some level =>
      rw [hopened] at h
      obtain ⟨s, hs, rfl⟩ := Option.map_eq_some_iff.1 h
      obtain ⟨rest, rfl⟩ := opened?_eq_some hopened
      rw [← length_opener level, List.drop_left] at hs
      rw [bind_ok openBracket_opener]
      dsimp only
      rw [bind_ok (bracketBody_eq hs), ← length_opener level,
        Place.skip_append_add (breaks_opener level rest)]
      rfl
    | none =>
      rw [hopened] at h
      cases h
      obtain ⟨ds, rfl⟩ := List.head?_eq_some_iff.1 hhead
      rw [bind_ok (openBracket_none hopened)]
      dsimp only
      rw [bind_ok (restore_eq ..)]
      exact skipLine_eq source ('[' :: ds) p ""
  · rw [opened?_of_head hhead] at h
    cases h
    rw [if_neg hhead, skipLine_eq]

theorem skipComment_none (h : Trivia.commentSize? cs = none) :
    ∃ b, (skipComment : Scanner Unit) ⟨source, ⟨cs, p⟩, ""⟩ =
      .error ⟨.unfinishedLongComment, Span.empty (p.after cs)⟩ ⟨source, ⟨[], p.after cs⟩, b⟩ := by
  rw [Trivia.commentSize?] at h
  cases hopened : opened? cs with
  | none =>
    rw [hopened] at h
    cases h
  | some level =>
    rw [hopened] at h
    obtain ⟨rest, rfl⟩ := opened?_eq_some hopened
    have hread := Option.map_eq_none_iff.1 h
    rw [← length_opener level, List.drop_left] at hread
    obtain ⟨b, hbody⟩ := bracketBody_none hread
    refine ⟨b, ?_⟩
    have hhead : (opener level ++ rest).head? = some '[' := rfl
    rw [skipComment, bind_ok (peek_eq ..), if_pos hhead, bind_ok (mark_eq ..),
      bind_ok openBracket_opener]
    dsimp only
    rw [bind_error hbody, Position.after_append_of_breaks (breaks_opener level rest)]

/-! ## Tokens -/

theorem bracket_mirrors (source cs : List Char) (p : Position) :
    Mirrors source ⟨'[' :: cs, p⟩ (Lexeme.readBracket ('[' :: cs))
      ((bracket ⟨'[' :: cs, p⟩ : Scanner Token) ⟨source, ⟨'[' :: cs, p⟩, ""⟩) := by
  rw [bracket, Lexeme.readBracket]
  cases hopened : opened? ('[' :: cs) with
  | some level =>
    obtain ⟨rest, hrest⟩ := opened?_eq_some hopened
    dsimp only
    rw [hrest, ← length_opener level, List.drop_left, bind_ok openBracket_opener]
    dsimp only
    cases hread : read? level rest with
    | some s =>
      rw [bind_ok (bracketBody_eq hread)]
      dsimp only [Mirrors]
      rw [Place.skip_append_add (breaks_opener level rest), String.empty_append]
      rfl
    | none =>
      obtain ⟨b, hbody⟩ := bracketBody_none hread
      rw [bind_error hbody]
      dsimp only [Mirrors]
      rw [← Position.after_append_of_breaks (breaks_opener level rest), Place.skip,
        List.drop_length, List.take_length]
      exact ⟨b, rfl, .inr rfl⟩
  | none =>
    rw [bind_ok (openBracket_none hopened), List.tail_cons]
    cases hrun : equalsRun cs with
    | zero =>
      show Mirrors source ⟨['['] ++ cs, p⟩ ⟨1, .ok { symbol := .leftBracket }⟩
        ((do restore ⟨'[' :: cs, p⟩; advance; token ⟨'[' :: cs, p⟩ .leftBracket : Scanner Token) _)
      rw [bind_ok (restore_eq ..), bind_ok (advance_char (by decide))]
      exact mirrors_token rfl
    | succ n =>
      have hlength : n + 1 ≤ cs.length := hrun ▸ (List.takeWhile_prefix _).length_le
      have hcs : '[' :: cs = '[' :: cs.take (n + 1) ++ cs.drop (n + 1) := by
        rw [List.cons_append, List.take_append_drop]
      show Mirrors source ⟨'[' :: cs, p⟩ ⟨n + 2, .error (.invalidLongDelimiter
          (String.ofList ('[' :: cs.take (n + 1))))⟩
        ((do fail (.invalidLongDelimiter (← sliceFrom ⟨'[' :: cs, p⟩)) : Scanner Token) _)
      rw [hcs, bind_ok (sliceFrom_eq ..)]
      exact mirrors_fail (by simp [hlength])

end Scanner

end LuaSource
