-- SUMMARY: Long brackets are read up to the first closer of their level.
import LuaSource.Proofs.Lexer.Calls
import LuaSource.Proofs.Text.Newlines

/-!
# Long brackets in a source

A long bracket ends with the first closer of its level, whatever stands in it and behind it. It is
one string, or one comment behind `--`. Without a closer nothing is read at all, and equals signs
that no second bracket completes are an error except in a comment.
-/

namespace LuaSource

namespace LongBracket

variable {level : Nat} {body behind rest : List Char}

/-- A long bracket with its body. -/
def around (level : Nat) (body : List Char) : List Char := opener level ++ (body ++ closer level)

/-- The closer behind the body is the first one. -/
def ClosesFirst (level : Nat) (body : List Char) : Prop :=
  ∀ body' behind, body ++ closer level = body' ++ (closer level ++ behind) → behind = []

/-- There is no closer. -/
def NeverCloses (level : Nat) (text : List Char) : Prop :=
  ∀ body behind, text ≠ body ++ (closer level ++ behind)

/-! ## Where a bracket ends -/

theorem before?_isSome {word before behind : List Char} :
    (before? word 0 (before ++ (word ++ behind))).isSome = true := by
  induction before with
  | nil =>
    have hword : word.isPrefixOf (word ++ behind) = true :=
      List.isPrefixOf_iff_prefix.2 ⟨behind, rfl⟩
    rw [List.nil_append]
    cases hcs : word ++ behind with
    | nil =>
      rw [before?, if_pos (List.isEmpty_iff.2 (List.append_eq_nil_iff.1 hcs).1)]
      rfl
    | cons c cs =>
      rw [before?, if_pos (hcs ▸ hword)]
      rfl
  | cons c before ih =>
    rw [List.cons_append, before?]
    split
    · rfl
    · rw [before?_add, Option.isSome_map, ih]

/-- The closer behind a body is the first one if no other is found before it. -/
theorem closesFirst_iff :
    ClosesFirst level body ↔ before? (closer level) 0 (body ++ closer level) = some body.length := by
  constructor
  · intro h
    have hsome := @before?_isSome (closer level) body []
    rw [List.append_nil] at hsome
    obtain ⟨n, hn⟩ := Option.isSome_iff_exists.1 hsome
    obtain ⟨body', rest', heq, rfl, -⟩ := before?_cut hn
    obtain rfl := h body' rest' heq
    rw [List.append_nil] at heq
    rw [hn, List.append_cancel_right heq]
  · intro h body' behind heq
    rw [heq] at h
    have hle := before?_le h
    have hlength := congrArg List.length heq
    simp only [List.length_append] at hlength
    exact List.length_eq_zero_iff.1 (by omega)

/-- Whatever follows it, the first closer is the one that a body is read up to. -/
theorem before?_of_closesFirst (h : ClosesFirst level body) (rest : List Char) :
    before? (closer level) 0 (body ++ (closer level ++ rest)) = some body.length := by
  obtain ⟨body', rest', heq, hlength, hcut⟩ := before?_cut (closesFirst_iff.1 h)
  obtain ⟨rfl, -⟩ := List.append_inj heq hlength.symm
  exact hcut rest

theorem neverCloses_iff {text : List Char} :
    NeverCloses level text ↔ before? (closer level) 0 text = none := by
  constructor
  · intro h
    cases hn : before? (closer level) 0 text with
    | none => rfl
    | some n =>
      obtain ⟨body, behind, htext, -, -⟩ := before?_cut hn
      exact absurd htext (h body behind)
  · rintro hnone body behind rfl
    have hsome := @before?_isSome (closer level) body behind
    rw [hnone] at hsome
    cases hsome

theorem read?_of_closesFirst (h : ClosesFirst level body) (rest : List Char) :
    read? level (body ++ (closer level ++ rest)) = some ⟨body.length + (level + 2), value body⟩ := by
  rw [read?, before?_of_closesFirst h, Option.map_some, List.take_left]

theorem around_append (level : Nat) (body rest : List Char) :
    around level body ++ rest = opener level ++ (body ++ (closer level ++ rest)) := by
  rw [around, List.append_assoc, List.append_assoc]

theorem length_around (level : Nat) (body : List Char) :
    (around level body).length = level + 2 + (body.length + (level + 2)) := by
  simp [around]

theorem opened?_of_head_ne {text : List Char} (hequals : text.head? ≠ some '=')
    (hbracket : text.head? ≠ some '[') :
    opened? ('[' :: (List.replicate level '=' ++ text)) = none := by
  rw [opened?, equalsRun_replicate_append level text hequals,
    List.drop_left' (List.length_replicate ..), if_neg fun h => hbracket h.2]

end LongBracket

open LongBracket

variable {level : Nat} {body behind rest : List Char}

namespace Lexeme

theorem read_opener (level : Nat) (text : List Char) :
    read (opener level ++ text) =
      match read? level text with
      | some s => ⟨level + 2 + s.size, .ok { symbol := .string, value := String.ofList s.result }⟩
      | none => ⟨(opener level ++ text).length, .error .unfinishedLongString⟩ := by
  have hdrop : (opener level ++ text).drop (level + 2) = text :=
    List.drop_left' (length_opener level)
  have hread : read (opener level ++ text) = readBracket (opener level ++ text) := read_bracket _
  rw [hread, readBracket, opened?_opener_append]
  dsimp only
  cases hbody : read? level text with
  | none => rw [hdrop, hbody]
  | some s => rw [hdrop, hbody]

/-- A long bracket is one string. -/
theorem read_around (h : ClosesFirst level body) (rest : List Char) :
    read (around level body ++ rest) = ⟨(around level body).length,
      .ok { symbol := .string, value := String.ofList (LongBracket.value body) }⟩ := by
  rw [around_append, read_opener, read?_of_closesFirst h, length_around]

theorem read_neverCloses (h : NeverCloses level behind) :
    read (opener level ++ behind) =
      ⟨(opener level ++ behind).length, .error .unfinishedLongString⟩ := by
  rw [read_opener, read?, neverCloses_iff.1 h]
  rfl

theorem read_equals (hequals : rest.head? ≠ some '=') (hbracket : rest.head? ≠ some '[') :
    read ('[' :: (List.replicate (level + 1) '=' ++ rest)) =
      ⟨level + 2, .error (.invalidLongDelimiter
        (String.ofList ('[' :: List.replicate (level + 1) '=')))⟩ := by
  have htake : ('[' :: (List.replicate (level + 1) '=' ++ rest)).take (level + 2) =
      '[' :: List.replicate (level + 1) '=' := by
    rw [List.take_succ_cons, List.take_left' (List.length_replicate ..)]
  rw [read_bracket, readBracket, opened?_of_head_ne hequals hbracket, List.tail_cons,
    equalsRun_replicate_append _ _ hequals]
  dsimp only
  rw [htake]

end Lexeme

/-! ## Comments -/

namespace Trivia

theorem commentSize?_opener (level : Nat) (text : List Char) :
    commentSize? (opener level ++ text) = (read? level text).map fun s => level + 2 + s.size := by
  rw [commentSize?, opened?_opener_append]
  dsimp only
  rw [List.drop_left' (length_opener level)]

theorem commentSize?_around (h : ClosesFirst level body) (rest : List Char) :
    commentSize? (around level body ++ rest) = some (around level body).length := by
  rw [around_append, commentSize?_opener, read?_of_closesFirst h, Option.map_some, length_around]

theorem commentSize?_neverCloses (h : NeverCloses level behind) :
    commentSize? (opener level ++ behind) = none := by
  rw [commentSize?_opener, read?, neverCloses_iff.1 h]
  rfl

theorem isNewline_equals {line : List Char} (hline : ∀ c ∈ line, isNewline c = false) :
    ∀ c ∈ '[' :: (List.replicate level '=' ++ line), isNewline c = false := by
  simp only [List.mem_cons, List.mem_append, List.mem_replicate]
  rintro c (rfl | ⟨-, rfl⟩ | hc)
  · rfl
  · rfl
  · exact hline c hc

/-- Equals signs behind a bracket, and no second bracket, are a part of the line. -/
theorem commentSize?_equals {line : List Char} (hequals : (line ++ rest).head? ≠ some '=')
    (hbracket : (line ++ rest).head? ≠ some '[') (hline : ∀ c ∈ line, isNewline c = false)
    (hrest : ∀ c ∈ rest.head?, isNewline c = true) :
    commentSize? ('[' :: (List.replicate level '=' ++ line) ++ rest) =
      some ('[' :: (List.replicate level '=' ++ line)).length := by
  have hopened := @opened?_of_head_ne level (line ++ rest) hequals hbracket
  have hall := @isNewline_equals level line hline
  have htake : rest.takeWhile (!isNewline ·) = [] := by
    cases rest with
    | nil => rfl
    | cons c rest => rw [List.takeWhile_cons_of_neg (by simp [hrest c rfl])]
  rw [commentSize?, List.cons_append, List.append_assoc, hopened]
  dsimp only
  rw [← List.append_assoc, ← List.cons_append,
    List.takeWhile_append_of_pos fun c hc => by rw [hall c hc, Bool.not_false], htake,
    List.append_nil]

/-- Reading goes on behind a comment. -/
theorem read_comment_append {text : List Char} (h : commentSize? (text ++ rest) = some text.length) :
    read ('-' :: '-' :: text ++ rest) = (read rest).after ('-' :: '-' :: text).length := by
  have hread := read_comment h
  rw [List.drop_left] at hread
  exact hread

end Trivia

theorem LongBracket.ends_bracket (text : List Char) : Trivia.Ends ('[' :: text) := by
  rintro c ⟨⟩
  exact ⟨rfl, nofun⟩

namespace Lexer

variable {l l' : Lexer} {p : Position}

theorem At.next_comment {text : List Char} (h : l.At ⟨'-' :: '-' :: (text ++ rest), p⟩)
    (h' : l'.At ⟨rest, p.after ('-' :: '-' :: text)⟩)
    (hsize : Trivia.commentSize? (text ++ rest) = some text.length)
    (hbreaks : Breaks ('-' :: '-' :: text) rest) :
    l.next.1 = l'.next.1 ∧ l.next.2.cursor.place = l'.next.2.cursor.place :=
  @At.next_skip ('-' :: '-' :: text) rest p l l' h h' hbreaks (Trivia.read_comment_append hsize)

theorem At.next_unfinished {text : List Char} (h : l.At ⟨'-' :: '-' :: text, p⟩)
    (hsize : Trivia.commentSize? text = none) :
    l.next.1 =
      .error ⟨.unfinishedLongComment, Span.empty (p.after ('-' :: '-' :: text))⟩ := by
  rw [h.next.1]
  simp [Place.readToken, Scanner.Trivia.read_unfinished hsize, Place.skip]

/-- What a call of the lexer makes of a long bracket, at whatever position it begins. If the closer
behind the body is the first one, then the bracket is one string, and behind `--` one comment. If
there is no closer, then the error is at the end of the source. Equals signs that no second bracket
completes are an error, and behind `--` a part of the line. -/
theorem next_longBracket (level : Nat) (p : Position) :
    (∀ body rest, ClosesFirst level body →
      (∀ l : Lexer, l.At ⟨around level body ++ rest, p⟩ →
        ∃ value, StandsFor body value ∧
          l.next.1 = .ok { symbol := .string, value := String.ofList value,
                           span := ⟨p, p.after (around level body)⟩ } ∧
          l.next.2.At ⟨rest, p.after (around level body)⟩) ∧
      (∀ source, (Scanner.skipComment : Scanner Unit) ⟨source, ⟨around level body ++ rest, p⟩, ""⟩ =
        .ok () ⟨source, ⟨rest, p.after (around level body)⟩, ""⟩) ∧
      ∀ l l' : Lexer, l.At ⟨'-' :: '-' :: (around level body ++ rest), p⟩ →
        l'.At ⟨rest, p.after ('-' :: '-' :: around level body)⟩ →
        l.next.1 = l'.next.1 ∧ l.next.2.cursor.place = l'.next.2.cursor.place) ∧
    (∀ behind, NeverCloses level behind →
      (∀ l : Lexer, l.At ⟨opener level ++ behind, p⟩ →
        l.next.1 = .error ⟨.unfinishedLongString, Span.empty (p.after (opener level ++ behind))⟩) ∧
      ∀ l : Lexer, l.At ⟨'-' :: '-' :: (opener level ++ behind), p⟩ →
        l.next.1 = .error ⟨.unfinishedLongComment,
          Span.empty (p.after ('-' :: '-' :: (opener level ++ behind)))⟩) ∧
    (∀ line rest, level ≠ 0 → (line ++ rest).head? ≠ some '=' → (line ++ rest).head? ≠ some '[' →
      (∀ l : Lexer, l.At ⟨'[' :: (List.replicate level '=' ++ (line ++ rest)), p⟩ →
        l.next.1 = .error ⟨.invalidLongDelimiter (String.ofList ('[' :: List.replicate level '=')),
          Span.empty (p.after ('[' :: List.replicate level '='))⟩) ∧
      ((∀ c ∈ line, isNewline c = false) → (∀ c ∈ rest.head?, isNewline c = true) →
        ∀ l l' : Lexer,
          l.At ⟨'-' :: '-' :: '[' :: (List.replicate level '=' ++ (line ++ rest)), p⟩ →
          l'.At ⟨rest, p.after ('-' :: '-' :: '[' :: (List.replicate level '=' ++ line))⟩ →
          l.next.1 = l'.next.1 ∧ l.next.2.cursor.place = l'.next.2.cursor.place)) := by
  refine ⟨fun body rest hcloses => ⟨fun l hl => ?_, fun source => ?_, fun l l' hl hl' => ?_⟩,
    fun behind hnever => ⟨fun l hl => ?_, fun l hl => ?_⟩,
    fun line rest hlevel hequals hbracket => ⟨fun l hl => ?_, fun hline hrest l l' hl hl' => ?_⟩⟩
  · have hends : Trivia.Ends (around level body ++ rest) := by
      rw [around_append]
      exact ends_bracket _
    exact ⟨_, standsFor_iff.2 rfl, hl.next_lexeme hends (Lexeme.read_around hcloses rest)⟩
  · rw [Scanner.skipComment_eq (Trivia.commentSize?_around hcloses rest), Place.skip_append]
  · exact hl.next_comment hl' (Trivia.commentSize?_around hcloses rest) (Comment.long hcloses).breaks
  · have hread := Lexeme.read_neverCloses hnever
    rw [← List.append_nil (opener level ++ behind)] at hl
    refine (hl.next_error ?_ ?_).1
    · rw [List.append_nil]
      exact ends_bracket _
    · rw [List.append_nil]
      exact hread
  · exact hl.next_unfinished (Trivia.commentSize?_neverCloses hnever)
  · obtain ⟨n, rfl⟩ := Nat.exists_eq_succ_of_ne_zero hlevel
    have hread := @Lexeme.read_equals n (line ++ rest) hequals hbracket
    have hlength : ('[' :: List.replicate (n + 1) '=').length = n + 2 := by simp
    rw [← hlength] at hread
    exact (@At.next_error ('[' :: List.replicate (n + 1) '=') _ p l _ hl (ends_bracket _) hread).1
  · rw [← List.append_assoc] at hl
    exact hl.next_comment hl' (Trivia.commentSize?_equals hequals hbracket hline hrest)
      (.of_all (List.forall_mem_cons.2 ⟨rfl, List.forall_mem_cons.2
        ⟨rfl, Trivia.isNewline_equals hline⟩⟩) rest)

theorem next_longBracket_nested :
    (∃ value, StandsFor ['\n', ']', ']'] value ∧
      (ofText "[=[\n]]]=]x").next.1 =
        .ok { symbol := .string, value := String.ofList value,
              span := ⟨Position.start, Position.start.after (around 1 ['\n', ']', ']'])⟩ }) ∧
    (∀ l' : Lexer, l'.At ⟨['x'], Position.start.after ('-' :: '-' :: around 1 ['\n', ']', ']'])⟩ →
      (ofText "--[=[\n]]]=]x").next.1 = l'.next.1) ∧
    (ofText "[=[]]").next.1 = .error ⟨.unfinishedLongString,
      Span.empty (Position.start.after (opener 1 ++ [']', ']']))⟩ ∧
    (ofText "--[=[]]").next.1 = .error ⟨.unfinishedLongComment,
      Span.empty (Position.start.after ('-' :: '-' :: (opener 1 ++ [']', ']'])))⟩ ∧
    (ofText "[=x").next.1 = .error ⟨.invalidLongDelimiter "[=",
      Span.empty (Position.start.after ['[', '='])⟩ := by
  have hcloses : ClosesFirst 1 ['\n', ']', ']'] := closesFirst_iff.2 rfl
  have hnever : NeverCloses 1 [']', ']'] := neverCloses_iff.2 rfl
  obtain ⟨hclosed, hopen, hequals⟩ := next_longBracket 1 Position.start
  obtain ⟨hstring, -, hcomment⟩ := hclosed _ ['x'] hcloses
  obtain ⟨hstring', hcomment'⟩ := hopen _ hnever
  obtain ⟨value, hvalue, hnext, -⟩ := hstring _ (at_ofSource "[=[\n]]]=]x" false)
  exact ⟨⟨value, hvalue, hnext⟩,
    fun l' hl' => (hcomment _ l' (at_ofSource "--[=[\n]]]=]x" false) hl').1,
    hstring' _ (at_ofSource "[=[]]" false), hcomment' _ (at_ofSource "--[=[]]" false),
    (hequals ['x'] [] (by decide) (by decide) (by decide)).1 _ (at_ofSource "[=x" false)⟩

end Lexer

end LuaSource
