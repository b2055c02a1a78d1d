-- SUMMARY: What is read over between lexemes is blanks and complete comments.
import LuaSource.Proofs.Lexeme.Cut

/-!
# Filler

Where a comment ends is decided by the text behind it: a line goes on up to a newline, and whether
a long bracket opens can depend on what comes next. So filler is filler before a text.
-/

namespace LuaSource

open LongBracket

/-- A comment before the text `rest`. It is a long bracket if one opens right behind the `--`, which
ends with the first closer, and the rest of the line otherwise. -/
inductive Comment (rest : List Char) : List Char → Prop
  | line {line : List Char} (hopened : ∀ level behind, line ++ rest ≠ opener level ++ behind)
      (hline : ∀ c ∈ line, isNewline c = false) (hrest : ∀ c ∈ rest.head?, isNewline c = true) :
      Comment rest ('-' :: '-' :: line)
  | long {level : Nat} {body : List Char} (hclosed : ∀ body' behind,
      body ++ closer level = body' ++ (closer level ++ behind) → behind = []) :
      Comment rest ('-' :: '-' :: (opener level ++ (body ++ closer level)))

/-- Blanks and comments before the text `rest`. -/
inductive Filler (rest : List Char) : List Char → Prop
  | nil : Filler rest []
  | blank {c : Char} {cs : List Char} (hc : isBlank c = true) (h : Filler rest cs) :
      Filler rest (c :: cs)
  | comment {comment cs : List Char} (hcomment : Comment (cs ++ rest) comment)
      (h : Filler rest cs) : Filler rest (comment ++ cs)

/-! ## Comments -/

theorem LongBracket.before?_le {word before behind : List Char} {n : Nat}
    (h : before? word 0 (before ++ (word ++ behind)) = some n) : n ≤ before.length := by
  induction before generalizing n with
  | nil =>
    rw [List.nil_append] at h
    have hword : word.isPrefixOf (word ++ behind) = true :=
      List.isPrefixOf_iff_prefix.2 ⟨behind, rfl⟩
    cases hcs : word ++ behind with
    | nil =>
      rw [hcs, before?, if_pos (List.isEmpty_iff.2 (List.append_eq_nil_iff.1 hcs).1)] at h
      cases h
      exact Nat.le_refl _
    | cons c cs =>
      rw [hcs] at h hword
      rw [before?, if_pos hword] at h
      cases h
      exact Nat.le_refl _
  | cons c before ih =>
    rw [List.cons_append, before?] at h
    split at h
    · cases h
      exact Nat.zero_le _
    · rw [before?_add] at h
      obtain ⟨m, hm, rfl⟩ := Option.map_eq_some_iff.1 h
      have hle := ih hm
      rw [List.length_cons]
      omega

/-- What is read over behind `--` is a comment with it. -/
theorem Trivia.exists_comment {cs : List Char} {k : Nat} (h : commentSize? cs = some k) :
    ∃ text rest, cs = text ++ rest ∧ text.length = k ∧ Comment rest ('-' :: '-' :: text) := by
  rw [commentSize?] at h
  cases hopened : opened? cs with
  | some level =>
    rw [hopened] at h
    obtain ⟨s, hs, rfl⟩ := Option.map_eq_some_iff.1 h
    obtain ⟨inner, rfl⟩ := opened?_eq_some hopened
    rw [← length_opener level, List.drop_left, read?] at hs
    obtain ⟨n, hn, rfl⟩ := Option.map_eq_some_iff.1 hs
    obtain ⟨body, rest, rfl, rfl, hbody⟩ := before?_cut hn
    refine ⟨opener level ++ (body ++ closer level), rest, ?_, ?_, .long fun body' behind heq => ?_⟩
    · simp only [List.append_assoc]
    · simp
    · -- No closer ends before the one that was found.
      have hfirst := hbody []
      rw [List.append_nil, heq] at hfirst
      have hle := before?_le hfirst
      have hlength := congrArg List.length heq
      simp only [List.length_append, length_closer] at hlength
      exact List.length_eq_zero_iff.1 (by omega)
  | none =>
    rw [hopened] at h
    cases h
    obtain ⟨line, rest, rfl, hline, hall, hrest⟩ := exists_takeWhile (!isNewline ·) cs
    refine ⟨line, rest, rfl, by rw [hline], .line (fun level behind hopens => ?_)
      (fun c hc => by simpa using hall c hc) fun c hc => ?_⟩
    · rw [hopens, opened?_opener_append] at hopened
      cases hopened
    · rw [Option.mem_def.1 hc] at hrest
      simpa using hrest

/-! ## Filler -/

/-- What is read over before a lexeme is filler. -/
theorem Trivia.filler_read {cs : List Char} {n : Nat} (h : read cs = ⟨n, .ok ()⟩) :
    Filler (cs.drop n) (cs.take n) := by
  generalize hbound : cs.length = bound
  induction bound using Nat.strongRecOn generalizing cs n with
  | _ bound ih =>
  subst hbound
  -- Reading goes on behind one blank or one comment.
  have hstep : ∀ {text rest : List Char}, cs = text ++ rest → text ≠ [] →
      read cs = (read rest).after text.length →
      ∃ m, n = text.length + m ∧ Filler (rest.drop m) (rest.take m) := by
    intro text rest hcs htext hread
    obtain ⟨m, result, hrest⟩ : ∃ m result, read rest = ⟨m, result⟩ := ⟨_, _, rfl⟩
    rw [h, hrest] at hread
    injection hread with hn hresult
    refine ⟨m, hn, ih rest.length ?_ (hresult ▸ hrest) rfl⟩
    have hpos := List.length_pos_iff.2 htext
    rw [hcs, List.length_append]
    omega
  cases cs with
  | nil =>
    rw [List.take_nil]
    exact .nil
  | cons c cs =>
    by_cases hblank : isBlank c = true
    · obtain ⟨m, rfl, hfiller⟩ :=
        @hstep [c] cs rfl (List.cons_ne_nil _ _) (read_blank hblank cs)
      rw [List.length_singleton, Nat.add_comm]
      exact .blank hblank hfiller
    · by_cases hdash : c = '-' ∧ cs.head? = some '-'
      · obtain ⟨rfl, hhead⟩ := hdash
        obtain ⟨cs, rfl⟩ := List.head?_eq_some_iff.1 hhead
        cases hsize : commentSize? cs with
        | none =>
          rw [read, readFrom, if_neg hblank, if_pos ⟨rfl, rfl⟩, List.tail_cons, hsize] at h
          cases h
        | some k =>
          obtain ⟨text, rest, rfl, rfl, hcomment⟩ := exists_comment hsize
          have hread := read_comment hsize
          rw [List.drop_left] at hread
          obtain ⟨m, rfl, hfiller⟩ :=
            @hstep ('-' :: '-' :: text) rest rfl (List.cons_ne_nil _ _) hread
          rw [show '-' :: '-' :: (text ++ rest) = ('-' :: '-' :: text) ++ rest from rfl,
            List.drop_length_add_append, List.take_length_add_append]
          exact .comment (by rwa [List.take_append_drop]) hfiller
      · have hends : Ends (c :: cs) := by
          rintro d ⟨⟩
          exact ⟨eq_false_of_ne_true hblank, fun hc hhead => hdash ⟨hc, hhead⟩⟩
        rw [read_of_ends hends] at h
        cases h
        exact .nil

end LuaSource
