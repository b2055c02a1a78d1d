-- SUMMARY: A lexeme stays the same when the text behind it is cut off.
import LuaSource.Lexeme.Read

/-!
# Cutting a text behind a lexeme

What is read at the head of a text is decided by the characters that are read and by the
one behind them. So the text behind a lexeme can be cut off or, with a space between, be
replaced by any other.
-/

namespace LuaSource

/-- Whether the text `r` can stand where `rest` does: it is empty, or it begins with a space, with a
newline or as `rest` does. -/
def Resumes (rest r : List Char) : Prop := ∀ c ∈ r.head?, (c = ' ' ∨ c = '\n') ∨ c ∈ rest.head?

theorem Resumes.refl (rest : List Char) : Resumes rest rest := fun _ hc => .inr hc

theorem Resumes.space (rest cs : List Char) : Resumes rest (' ' :: cs) := by
  intro c hc
  cases hc
  exact .inl (.inl rfl)

theorem Resumes.newline (rest cs : List Char) : Resumes rest ('\n' :: cs) := by
  intro c hc
  cases hc
  exact .inl (.inr rfl)

/-- A text can go on behind its end with a newline. -/
theorem Resumes.newline_behind (rest cs : List Char) : Resumes rest (rest ++ '\n' :: cs) := by
  cases rest with
  | nil => exact .newline [] cs
  | cons c rest => exact .refl (c :: rest)

theorem Resumes.append {word rest r : List Char} (h : Resumes rest r) :
    Resumes (word ++ rest) (word ++ r) := by
  cases word with
  | nil => exact h
  | cons c cs => exact .refl (c :: cs)

/-- What a text does not begin with, no text does that resumes it. -/
theorem Resumes.any {rest r : List Char} (h : Resumes rest r) {p : Char → Bool}
    (hp : p ' ' = false ∧ p '\n' = false) (hrest : rest.head?.any p = false) :
    r.head?.any p = false := by
  cases r with
  | nil => rfl
  | cons c cs =>
    rcases h c rfl with (rfl | rfl) | hc
    · exact hp.1
    · exact hp.2
    · rwa [Option.mem_def.1 hc] at hrest

/-! ## Runs of characters -/

theorem takeWhile_eq_nil {p : Char → Bool} {cs : List Char} (h : cs.head?.any p = false) :
    cs.takeWhile p = [] := by
  cases cs with
  | nil => rfl
  | cons c cs => rw [List.takeWhile_cons_of_neg (by simpa using h)]

theorem any_head?_of_takeWhile_eq_nil {p : Char → Bool} {cs : List Char}
    (h : cs.takeWhile p = []) : cs.head?.any p = false := by
  cases cs with
  | nil => rfl
  | cons c cs =>
    cases hc : p c with
    | false => exact hc
    | true =>
      rw [List.takeWhile_cons_of_pos hc] at h
      cases h

theorem takeWhile_append_drop (p : Char → Bool) (cs : List Char) :
    cs.takeWhile p ++ cs.drop (cs.takeWhile p).length = cs :=
  List.prefix_iff_eq_append.1 (List.takeWhile_prefix p)

theorem of_mem_takeWhile {p : Char → Bool} {cs : List Char} {c : Char} (h : c ∈ cs.takeWhile p) :
    p c = true :=
  List.all_eq_true.1 List.all_takeWhile c h

/-- A run ends where its kind of character does. -/
theorem takeWhile_append {p : Char → Bool} {word rest : List Char}
    (hword : ∀ c ∈ word, p c = true) (hrest : rest.head?.any p = false) :
    (word ++ rest).takeWhile p = word := by
  rw [List.takeWhile_append_of_pos hword, takeWhile_eq_nil hrest, List.append_nil]

/-- A text is a run with something behind it that does not go on with it. -/
theorem exists_takeWhile (p : Char → Bool) (cs : List Char) :
    ∃ word rest, cs = word ++ rest ∧ cs.takeWhile p = word ∧ (∀ c ∈ word, p c = true) ∧
      rest.head?.any p = false := by
  induction cs with
  | nil => exact ⟨[], [], rfl, rfl, nofun, rfl⟩
  | cons c cs ih =>
    by_cases hc : p c = true
    · obtain ⟨word, rest, rfl, hword, hall, hrest⟩ := ih
      refine ⟨c :: word, rest, rfl, ?_, List.forall_mem_cons.2 ⟨hc, hall⟩, hrest⟩
      rw [List.takeWhile_cons_of_pos hc, hword]
    · exact ⟨[], c :: cs, rfl, List.takeWhile_cons_of_neg hc, nofun, eq_false_of_ne_true hc⟩

/-- A run that ends inside a text does not depend on what stands behind the text. -/
theorem takeWhile_append_of_lt {p : Char → Bool} {word rest : List Char}
    (h : ((word ++ rest).takeWhile p).length < word.length) (r : List Char) :
    (word ++ r).takeWhile p = (word ++ rest).takeWhile p := by
  rw [List.takeWhile_append] at h ⊢
  rw [List.takeWhile_append]
  split at h
  · rw [List.length_append] at h
    omega
  · next hne => rw [if_neg hne, if_neg hne]

/-! ## Long brackets -/

namespace LongBracket

theorem opened?_eq_some {level : Nat} {cs : List Char} (h : opened? cs = some level) :
    ∃ rest, cs = opener level ++ rest := by
  cases cs with
  | nil => cases h
  | cons c cs =>
    rw [opened?] at h
    split at h
    · next hc =>
      cases h
      obtain ⟨rfl, hhead⟩ := hc
      obtain ⟨rest, hrest⟩ := List.head?_eq_some_iff.1 hhead
      have hrun : cs.takeWhile (· == '=') = List.replicate (equalsRun cs) '=' := by
        refine List.eq_replicate_iff.2 ⟨rfl, fun d hd => ?_⟩
        simpa using of_mem_takeWhile hd
      refine ⟨rest, ?_⟩
      rw [opener, List.cons_append, List.append_assoc, List.singleton_append, ← hrest, ← hrun]
      exact congrArg _ (takeWhile_append_drop _ cs).symm
    · cases h

theorem isNewline_of_mem_opener {level : Nat} {c : Char} (h : c ∈ opener level) :
    isNewline c = false := by
  rw [opener, List.mem_cons, List.mem_append] at h
  rcases h with rfl | h | h
  · decide
  · rw [List.eq_of_mem_replicate h]
    decide
  · rw [List.mem_singleton.1 h]
    decide

/-- An opener has no newline in it, so that none goes on behind a newline. -/
theorem opened?_newline {word rest : List Char} (h : opened? (word ++ rest) = none) {c : Char}
    (hc : isNewline c = true) (r : List Char) : opened? (word ++ c :: r) = none := by
  cases hlevel : opened? (word ++ c :: r) with
  | none => rfl
  | some level =>
    obtain ⟨behind, hbehind⟩ := opened?_eq_some hlevel
    have hprefix : ∃ inner, word = opener level ++ inner := by
      rcases List.append_eq_append_iff.1 hbehind with ⟨inner, hinner, hrest⟩ | ⟨inner, hinner, -⟩
      · cases inner with
        | nil => exact ⟨[], by rw [hinner, List.append_nil, List.append_nil]⟩
        | cons d inner =>
          obtain ⟨rfl, -⟩ := List.cons.inj hrest
          have hmem : c ∈ opener level := by
            rw [hinner]
            simp
          rw [isNewline_of_mem_opener hmem] at hc
          cases hc
      · exact ⟨inner, hinner⟩
    obtain ⟨inner, rfl⟩ := hprefix
    rw [List.append_assoc, opened?_opener_append] at h
    cases h

theorem before?_cut {word cs : List Char} {n : Nat} (h : before? word 0 cs = some n) :
    ∃ body rest, cs = body ++ (word ++ rest) ∧ body.length = n ∧
      ∀ r, before? word 0 (body ++ (word ++ r)) = some n := by
  induction cs generalizing n with
  | nil =>
    rw [before?] at h
    split at h
    · next hword =>
      cases h
      obtain rfl := List.isEmpty_iff.1 hword
      refine ⟨[], [], rfl, rfl, fun r => ?_⟩
      cases r <;> rfl
    · cases h
  | cons c cs ih =>
    rw [before?] at h
    split at h
    · next hword =>
      cases h
      obtain ⟨rest, hrest⟩ := List.isPrefixOf_iff_prefix.1 hword
      refine ⟨[], rest, hrest.symm, rfl, fun r => ?_⟩
      rw [List.nil_append]
      cases hr : word ++ r with
      | nil => rw [before?, if_pos (List.isEmpty_iff.2 (List.append_eq_nil_iff.1 hr).1)]
      | cons d ds =>
        rw [before?, if_pos]
        exact List.isPrefixOf_iff_prefix.2 ⟨r, hr⟩
    · next hword =>
      rw [before?_add] at h
      obtain ⟨m, hm, rfl⟩ := Option.map_eq_some_iff.1 h
      obtain ⟨body, rest, rfl, rfl, hbody⟩ := ih hm
      refine ⟨c :: body, rest, rfl, by rw [List.length_cons, Nat.add_comm], fun r => ?_⟩
      rw [List.cons_append, before?, if_neg, before?_add, hbody, Option.map_some]
      -- The word is no longer than what stands before the text that is replaced.
      intro hr
      refine hword (List.isPrefixOf_iff_prefix.2 ?_)
      have hlong : word <+: c :: body ++ word := by
        refine List.prefix_of_prefix_length_le (List.isPrefixOf_iff_prefix.1 hr) ?_ ?_
        · exact ⟨r, by simp⟩
        · simp only [List.cons_append, List.length_cons, List.length_append]
          omega
      exact hlong.trans ⟨rest, by simp⟩

theorem read?_cut {level : Nat} {cs : List Char} {s : Scan (List Char)}
    (h : read? level cs = some s) :
    ∃ word rest, cs = word ++ rest ∧ word.length = s.size ∧
      ∀ r, read? level (word ++ r) = some s := by
  obtain ⟨n, hn, rfl⟩ := Option.map_eq_some_iff.1 h
  obtain ⟨body, rest, rfl, rfl, hbody⟩ := before?_cut hn
  refine ⟨body ++ closer level, rest, (List.append_assoc ..).symm, ?_, fun r => ?_⟩
  · rw [List.length_append, length_closer]
  · rw [read?, List.append_assoc, hbody, Option.map_some, List.take_left, List.take_left]

end LongBracket

/-! ## Blanks and comments -/

namespace Trivia

/-- The character behind a comment goes with it: the comment may end because of it. -/
theorem commentSize?_cut {word rest : List Char} {c : Char}
    (h : commentSize? (word ++ c :: rest) = some word.length) (r : List Char) :
    commentSize? (word ++ c :: r) = some word.length := by
  rw [commentSize?] at h
  split at h
  · next level hopened =>
    obtain ⟨s, hs, hsize⟩ := Option.map_eq_some_iff.1 h
    obtain ⟨body, hbody⟩ := LongBracket.opened?_eq_some hopened
    rw [hbody, ← LongBracket.length_opener level, List.drop_left] at hs
    obtain ⟨inner, behind, rfl, hinner, hread⟩ := LongBracket.read?_cut hs
    have hword : word = LongBracket.opener level ++ inner := by
      have hlength : word.length = (LongBracket.opener level ++ inner).length := by
        rw [List.length_append, LongBracket.length_opener, hinner]
        exact hsize.symm
      rw [← List.append_assoc] at hbody
      exact (List.append_inj hbody hlength).1
    rw [commentSize?, hword, List.append_assoc, LongBracket.opened?_opener_append]
    dsimp only
    rw [← LongBracket.length_opener level, List.drop_left, hread, Option.map_some,
      List.length_append, hinner]
  · next hopened =>
    have hline : (word ++ c :: rest).takeWhile (!isNewline ·) = word := by
      refine (List.append_inj (takeWhile_append_drop _ _) ?_).1
      exact Option.some.inj h
    have hall : ∀ d ∈ word, (!isNewline d) = true := by
      intro d hd
      rw [← hline] at hd
      exact of_mem_takeWhile hd
    have hc : (!isNewline c) = false := by
      cases hc : !isNewline c with
      | false => rfl
      | true =>
        have hlength := congrArg List.length hline
        rw [List.takeWhile_append_of_pos hall, List.takeWhile_cons, if_pos hc, List.length_append,
          List.length_cons] at hlength
        omega
    have hclosed := LongBracket.opened?_newline hopened (by simpa using hc) r
    rw [commentSize?, hclosed]
    dsimp only
    rw [takeWhile_append hall (by simpa using hc)]

/-- A newline behind the end of a text ends the comment that reaches up to there. -/
theorem commentSize?_newline {cs : List Char} {k : Nat} (h : commentSize? cs = some k)
    (r : List Char) : commentSize? (cs ++ '\n' :: r) = some k := by
  rw [commentSize?] at h
  split at h
  · next level hopened =>
    obtain ⟨s, hs, rfl⟩ := Option.map_eq_some_iff.1 h
    obtain ⟨body, rfl⟩ := LongBracket.opened?_eq_some hopened
    rw [← LongBracket.length_opener level, List.drop_left] at hs
    obtain ⟨word, rest, rfl, -, hread⟩ := LongBracket.read?_cut hs
    rw [commentSize?, List.append_assoc, LongBracket.opened?_opener_append]
    dsimp only
    rw [← LongBracket.length_opener level, List.drop_left, List.append_assoc, hread]
    rfl
  · next hopened =>
    have hclosed : LongBracket.opened? (cs ++ '\n' :: r) = none :=
      LongBracket.opened?_newline (by rwa [List.append_nil]) rfl r
    obtain ⟨line, rest, rfl, hline, hall, hrest⟩ := exists_takeWhile (!isNewline ·) cs
    rw [hline] at h
    rw [commentSize?, hclosed]
    dsimp only
    rw [List.append_assoc, takeWhile_append hall, h]
    cases rest with
    | nil => rfl
    | cons c rest => exact hrest

theorem commentSize?_le {cs : List Char} {k : Nat} (h : commentSize? cs = some k) :
    k ≤ cs.length := by
  rw [commentSize?] at h
  split at h
  · next level hopened =>
    obtain ⟨s, hs, rfl⟩ := Option.map_eq_some_iff.1 h
    obtain ⟨body, rfl⟩ := LongBracket.opened?_eq_some hopened
    rw [← LongBracket.length_opener level, List.drop_left] at hs
    obtain ⟨word, rest, rfl, hword, -⟩ := LongBracket.read?_cut hs
    simp only [List.length_append, LongBracket.length_opener, hword]
    omega
  · cases h
    exact (List.takeWhile_prefix _).length_le

/-! What blanks and comments take up does not depend on how much was read before. -/

theorem readFrom_after (skip n : Nat) (cs : List Char) :
    readFrom skip n cs = (readFrom skip 0 cs).after n := by
  induction cs generalizing skip n with
  | nil => rfl
  | cons c cs ih =>
    cases skip with
    | succ skip =>
      rw [readFrom, readFrom, ih skip (n + 1), ih skip (0 + 1)]
      simp only [Scan.after, Nat.add_assoc, Nat.zero_add]
    | zero =>
      rw [readFrom, readFrom]
      split
      · rw [ih 0 (n + 1), ih 0 (0 + 1)]
        simp only [Scan.after, Nat.add_assoc, Nat.zero_add]
      · split
        · split
          · next k hk =>
            rw [ih (k + 1) (n + 1), ih (k + 1) (0 + 1)]
            simp only [Scan.after, Nat.add_assoc, Nat.zero_add]
          · simp only [Scan.after, Nat.add_assoc, Nat.zero_add]
        · rfl

theorem readFrom_skip {skip : Nat} {cs : List Char} (h : skip ≤ cs.length) :
    readFrom skip 0 cs = (read (cs.drop skip)).after skip := by
  induction cs generalizing skip with
  | nil =>
    obtain rfl := Nat.le_zero.1 h
    rfl
  | cons c cs ih =>
    cases skip with
    | zero => exact readFrom_after 0 0 (c :: cs)
    | succ skip =>
      rw [readFrom, readFrom_after, ih (Nat.le_of_succ_le_succ h), List.drop_succ_cons]
      simp only [Scan.after]
      congr 1
      omega

theorem read_blank {c : Char} (hc : isBlank c = true) (cs : List Char) :
    read (c :: cs) = (read cs).after 1 := by
  rw [read, readFrom, if_pos hc, readFrom_after]
  rfl

theorem read_comment {k : Nat} {cs : List Char} (h : commentSize? cs = some k) :
    read ('-' :: '-' :: cs) = (read (cs.drop k)).after (k + 2) := by
  have hk : k + 1 ≤ ('-' :: cs).length := Nat.succ_le_succ (commentSize?_le h)
  rw [read, readFrom, if_neg (by decide), if_pos ⟨rfl, rfl⟩, List.tail_cons, h]
  dsimp only
  rw [readFrom_after, readFrom_skip hk, List.drop_succ_cons]
  simp only [Scan.after]
  congr 1
  omega

/-- Where neither a blank nor a comment begins. -/
def Ends (cs : List Char) : Prop :=
  ∀ c ∈ cs.head?, isBlank c = false ∧ (c = '-' → cs.tail.head? ≠ some '-')

theorem Ends.resume {c : Char} {word rest r : List Char} (h : Ends (c :: (word ++ rest)))
    (hr : Resumes rest r) : Ends (c :: (word ++ r)) := by
  intro d hd
  cases hd
  obtain ⟨hblank, hcomment⟩ := h c rfl
  refine ⟨hblank, fun hc hminus => ?_⟩
  rcases hr.append _ hminus with hspace | hminus
  · simp at hspace
  · exact hcomment hc hminus

theorem read_of_ends {cs : List Char} (h : Ends cs) : read cs = ⟨0, .ok ()⟩ := by
  cases cs with
  | nil => rfl
  | cons c cs =>
    obtain ⟨hblank, hcomment⟩ := h c rfl
    rw [read, readFrom, hblank, if_neg Bool.false_ne_true, if_neg]
    rintro ⟨hc, hcs⟩
    exact hcomment hc hcs

/-- Blanks and comments that a text begins with stay the same if what stands behind them begins
with the same character and is neither. -/
theorem read_cut (n : Nat) {cs : List Char} (h : read cs = ⟨n, .ok ()⟩) :
    ∃ word rest, cs = word ++ rest ∧ word.length = n ∧ Ends rest ∧
      ∀ c r, rest.head? = some c → Ends (c :: r) → read (word ++ c :: r) = ⟨n, .ok ()⟩ := by
  induction hlength : cs.length using Nat.strongRecOn generalizing cs n with
  | _ length ih =>
    subst hlength
    -- Something of the size `k` stands before other blanks and comments.
    have hstep : ∀ (k : Nat) (first behind : List Char), cs = first ++ behind → 0 < k →
        first.length = k → read cs = (read behind).after k →
        (∀ c r, behind.head? = some c → read (first ++ c :: r) = (read (c :: r)).after k) →
        ∃ word rest, cs = word ++ rest ∧ word.length = n ∧ Ends rest ∧
          ∀ c r, rest.head? = some c → Ends (c :: r) → read (word ++ c :: r) = ⟨n, .ok ()⟩ := by
      rintro k first behind rfl hpos rfl hread hfirst
      rw [h] at hread
      obtain ⟨m, result, hbehind⟩ : ∃ m r, read behind = ⟨m, r⟩ := ⟨_, _, rfl⟩
      rw [hbehind] at hread
      cases hread
      have hlt : behind.length < (first ++ behind).length := by
        rw [List.length_append]
        omega
      obtain ⟨word, rest, rfl, rfl, hends, hcut⟩ := ih _ hlt m hbehind rfl
      refine ⟨first ++ word, rest, (List.append_assoc ..).symm, ?_, hends, fun c r hc hcr => ?_⟩
      · rw [List.length_append]
      · rw [List.append_assoc]
        cases word with
        | nil =>
          rw [List.nil_append, hfirst c r hc, read_of_ends hcr]
          rfl
        | cons d word =>
          rw [List.cons_append, hfirst d _ rfl, ← List.cons_append, hcut c r hc hcr]
          rfl
    cases cs with
    | nil =>
      cases h
      exact ⟨[], [], rfl, rfl, nofun, nofun⟩
    | cons d ds =>
      by_cases hblank : isBlank d = true
      · exact hstep 1 [d] ds rfl Nat.one_pos rfl (read_blank hblank ds) fun c r _ =>
          read_blank hblank (c :: r)
      · by_cases hcomment : d = '-' ∧ ds.head? = some '-'
        · obtain ⟨rfl, hhead⟩ := hcomment
          obtain ⟨es, rfl⟩ := List.head?_eq_some_iff.1 hhead
          cases hsize : commentSize? es with
          | none =>
            rw [read, readFrom, if_neg hblank, if_pos ⟨rfl, rfl⟩, List.tail_cons, hsize] at h
            cases h
          | some k =>
            have hk := commentSize?_le hsize
            refine hstep (k + 2) ('-' :: '-' :: es.take k) (es.drop k) ?_ (Nat.succ_pos _) ?_
              (read_comment hsize) fun c r hc => ?_
            · rw [List.cons_append, List.cons_append, List.take_append_drop]
            · simp [hk]
            · obtain ⟨rest, hrest⟩ := List.head?_eq_some_iff.1 hc
              have hlength : (es.take k).length = k := List.length_take_of_le hk
              have hcut : commentSize? (es.take k ++ c :: r) = some (es.take k).length := by
                refine @commentSize?_cut _ rest _ ?_ r
                rw [← hrest, List.take_append_drop, hlength, hsize]
              rw [List.cons_append, List.cons_append, read_comment hcut, List.drop_left, hlength]
        · have hends : Ends (d :: ds) := by
            intro c hc
            cases hc
            exact ⟨eq_false_of_ne_true hblank, fun hd hds => hcomment ⟨hd, hds⟩⟩
          rw [read_of_ends hends] at h
          cases h
          refine ⟨[], d :: ds, rfl, rfl, hends, fun c r _ hcr => ?_⟩
          rw [List.nil_append, read_of_ends hcr]

/-- Behind blanks and comments that reach up to the end of a text, a newline is one more blank. -/
theorem read_newline {cs : List Char} (h : read cs = ⟨cs.length, .ok ()⟩) (r : List Char) :
    read (cs ++ '\n' :: r) = (read r).after (cs.length + 1) := by
  induction hlength : cs.length using Nat.strongRecOn generalizing cs with
  | _ length ih =>
    subst hlength
    -- Something stands before blanks and comments that reach up to the end as well.
    have hstep : ∀ first behind : List Char, cs = first ++ behind → first ≠ [] →
        read cs = (read behind).after first.length →
        read (cs ++ '\n' :: r) = (read (behind ++ '\n' :: r)).after first.length →
        read (cs ++ '\n' :: r) = (read r).after (cs.length + 1) := by
      rintro first behind rfl hne hread hread'
      have hpos := List.length_pos_iff.2 hne
      rw [h] at hread
      obtain ⟨n, result, hbehind⟩ : ∃ n result, read behind = ⟨n, result⟩ := ⟨_, _, rfl⟩
      rw [hbehind, List.length_append, Scan.after] at hread
      injection hread with hn hresult
      obtain rfl : behind.length = n := Nat.add_left_cancel hn
      rw [hread', ih behind.length (by rw [List.length_append]; omega) (hresult ▸ hbehind) rfl]
      simp only [Scan.after, List.length_append, Nat.add_assoc]
    cases cs with
    | nil => exact read_blank rfl r
    | cons c cs =>
      by_cases hblank : isBlank c = true
      · exact hstep [c] cs rfl (List.cons_ne_nil _ _) (read_blank hblank cs)
          (read_blank hblank (cs ++ '\n' :: r))
      · by_cases hdash : c = '-' ∧ cs.head? = some '-'
        · obtain ⟨rfl, hhead⟩ := hdash
          obtain ⟨cs, rfl⟩ := List.head?_eq_some_iff.1 hhead
          cases hsize : commentSize? cs with
          | none =>
            rw [read, readFrom, if_neg hblank, if_pos ⟨rfl, rfl⟩, List.tail_cons, hsize] at h
            injection h with _ hresult
            cases hresult
          | some k =>
            have hk := commentSize?_le hsize
            have hlength : ('-' :: '-' :: cs.take k).length = k + 2 := by
              rw [List.length_cons, List.length_cons, List.length_take_of_le hk]
            refine hstep ('-' :: '-' :: cs.take k) (cs.drop k) ?_ (List.cons_ne_nil _ _) ?_ ?_
            · rw [List.cons_append, List.cons_append, List.take_append_drop]
            · rw [hlength, read_comment hsize]
            · rw [hlength, List.cons_append, List.cons_append,
                read_comment (commentSize?_newline hsize r), List.drop_append_of_le_length hk]
        · have hends : Ends (c :: cs) := by
            rintro d ⟨⟩
            exact ⟨eq_false_of_ne_true hblank, fun hc hhead => hdash ⟨hc, hhead⟩⟩
          rw [read_of_ends hends] at h
          injection h with hzero
          cases hzero

end Trivia

end LuaSource
