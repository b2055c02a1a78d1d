-- SUMMARY: The scanner of each kind of lexeme reads what the text has there.
import LuaSource.Proofs.Scanner.Bracket
import LuaSource.Proofs.Scanner.Quoted

/-!
# Scanning lexemes

The scanner of numerals keeps in mind whether a point and an exponent have been passed, and takes a
sign together with the exponent mark before it. Words and punctuation are passed in one go.
-/

namespace LuaSource

theorem isNewline_of_isNameContinue {c : Char} (h : isNameContinue c = true) :
    isNewline c = false := by
  cases hline : isNewline c with
  | false => rfl
  | true =>
    have hc : c = '\n' ∨ c = '\r' := by simpa [isNewline] using hline
    rcases hc with rfl | rfl <;> revert h <;> decide +kernel

namespace Scanner

open Numeral Scanning

variable {source cs ds : List Char} {p : Position} {b : String} {ch : Char} {hex : Bool}

/-! ## Numerals -/

/-- The part of a numeral that what it has had so far leads up to. -/
def Seen.part (seen : Seen) : Part :=
  if seen.exponent then .exponent else if seen.dot then .fraction else .integer

theorem isNewline_of_next? {part next : Part} (h : part.next? hex ch = some next) :
    isNewline ch = false := by
  cases hline : isNewline ch with
  | false => rfl
  | true =>
    have hc : ch = '\n' ∨ ch = '\r' := by simpa [isNewline] using hline
    rcases hc with rfl | rfl <;> cases hex <;> cases part <;> cases h

/-- A step of the scanner is a step from part to part, but that a sign is taken with the mark. -/
theorem numeralStep_eq (hex : Bool) (ch : Char) (seen : Seen) :
    (seen.part.next? hex ch = none ∧
      (numeralStep hex ch seen : Scanner (Seen ⊕ Unit)) = pure (.inr ())) ∨
    (seen.part.next? hex ch = some .mark ∧ (numeralStep hex ch seen : Scanner (Seen ⊕ Unit)) = do
      saveAndAdvance
      saveSign
      return .inl { seen with exponent := true }) ∨
    ∃ seen' : Seen, seen.part.next? hex ch = some seen'.part ∧
      (numeralStep hex ch seen : Scanner (Seen ⊕ Unit)) = do
        saveAndAdvance
        return .inl seen' := by
  obtain ⟨dot, exponent⟩ := seen
  rw [numeralStep]
  cases exponent with
  | true =>
    simp only [Seen.part, Part.next?, Bool.not_true, Bool.and_false]
    by_cases hdigit : ch.isDigit = true
    · exact .inr (.inr ⟨⟨dot, true⟩, by simp [hdigit]⟩)
    · exact .inl (by simp [hdigit])
  | false =>
    by_cases hmark : isExponentMark hex ch = true
    · refine .inr (.inl ?_)
      cases dot <;> simp [Seen.part, Part.next?, hmark]
    by_cases hpoint : ch = '.'
    · subst hpoint
      cases dot with
      | true =>
        refine .inl ?_
        cases hex <;> exact ⟨rfl, rfl⟩
      | false =>
        refine .inr (.inr ⟨⟨true, false⟩, ?_⟩)
        cases hex <;> exact ⟨rfl, rfl⟩
    have hdigit : ((hex && !false && isHexDigit ch) || ch.isDigit) = isMantissaDigit hex ch := by
      cases hex with
      | false => rfl
      | true =>
        cases hdigit : ch.isDigit with
        | false => simp [isMantissaDigit]
        | true => simp [isMantissaDigit, isHexDigit_of_isDigit hdigit]
    rw [hdigit]
    by_cases hmantissa : isMantissaDigit hex ch = true
    · refine .inr (.inr ⟨⟨dot, false⟩, ?_⟩)
      cases dot <;> simp [Seen.part, Part.next?, hmark, hpoint, hmantissa]
    · refine .inl ?_
      cases dot <;> simp [Seen.part, Part.next?, hmark, hpoint, hmantissa]

theorem next?_mark_of_isSign (h : isSign ch = true) :
    Part.mark.next? hex ch = some .exponent := by
  have hch : ch = '+' ∨ ch = '-' := by simpa [isSign] using h
  rcases hch with rfl | rfl <;> rfl

theorem next?_mark_of_not_isSign (h : isSign ch = false) :
    Part.mark.next? hex ch = Part.exponent.next? hex ch := by
  have hch : ch ≠ '+' ∧ ch ≠ '-' := by simpa [isSign] using h
  simp [Part.next?, hch]

/-- The text goes on with the numeral as far as `word`, from some part on. -/
def Runs (hex : Bool) (part : Part) (word rest : List Char) : Prop :=
  ∃ last, part.run? hex word = some last ∧ last.Stops hex rest

theorem Runs.cons {part next : Part} {word rest : List Char} (hnext : part.next? hex ch = some next)
    (h : Runs hex part (ch :: word) rest) : Runs hex next word rest := by
  obtain ⟨last, hrun, hstops⟩ := h
  rw [Part.run?, hnext] at hrun
  exact ⟨last, hrun, hstops⟩

theorem Runs.isNewline {part : Part} {word rest : List Char} (h : Runs hex part word rest) :
    ∀ c ∈ word, isNewline c = false := by
  induction word generalizing part with
  | nil => exact nofun
  | cons c word ih =>
    obtain ⟨last, hrun, hstops⟩ := h
    rw [Part.run?] at hrun
    obtain ⟨next, hnext, hrun⟩ := Option.bind_eq_some_iff.1 hrun
    exact List.forall_mem_cons.2 ⟨isNewline_of_next? hnext, ih ⟨last, hrun, hstops⟩⟩

/-- A numeral goes on with every character that it can go on with. -/
theorem Runs.head {part : Part} {word rest : List Char} (h : Runs hex part word rest)
    (hhead : (word ++ rest).head? = some ch) :
    if part.next? hex ch = none then word = [] else ∃ word', word = ch :: word' := by
  obtain ⟨last, hrun, hstops⟩ := h
  cases word with
  | nil =>
    cases hrun
    rw [if_pos (hstops ch hhead)]
  | cons d word =>
    cases hhead
    rw [if_neg]
    · exact ⟨word, rfl⟩
    · intro hnext
      rw [Part.run?, hnext] at hrun
      cases hrun

/-- Without a sign, an exponent begins right behind its mark. -/
theorem Runs.exponent {word rest : List Char} (h : Runs hex .mark word rest)
    (hsign : (word ++ rest).head?.any isSign = false) : Runs hex .exponent word rest := by
  have hnext : ∀ c ∈ (word ++ rest).head?,
      Part.mark.next? hex c = Part.exponent.next? hex c := by
    intro c hc
    rw [Option.mem_def.1 hc] at hsign
    exact next?_mark_of_not_isSign hsign
  obtain ⟨last, hrun, hstops⟩ := h
  cases word with
  | nil =>
    cases hrun
    refine ⟨_, rfl, fun c hc => ?_⟩
    rw [← hnext c hc]
    exact hstops c hc
  | cons c word =>
    refine ⟨last, ?_, hstops⟩
    rw [Part.run?, ← hnext c rfl]
    exact hrun

/-- Saving the characters of `word`, which `rest` follows, takes the cursor `c` to `e`. -/
def Saves (word rest : List Char) (c e : Cursor) : Prop :=
  ∃ source p b, c = ⟨source, ⟨word ++ rest, p⟩, b⟩ ∧
    e = ⟨source, ⟨rest, p.after word⟩, b ++ String.ofList word⟩

theorem Saves.nil {rest : List Char} {c e : Cursor} (h : Saves [] rest c e) : c = e := by
  obtain ⟨source, p, b, rfl, rfl⟩ := h
  rw [String.ofList_nil, String.append_empty]
  rfl

theorem Saves.cons {word rest : List Char} {c e : Cursor} (h : Saves (ch :: word) rest c e)
    (hline : isNewline ch = false) :
    ∃ c', (saveAndAdvance : Scanner Unit) c = .ok () c' ∧ c'.place.rest = word ++ rest ∧
      Saves word rest c' e := by
  obtain ⟨source, p, b, rfl, rfl⟩ := h
  refine ⟨_, saveAndAdvance_char hline, rfl, source, _, _, rfl, ?_⟩
  rw [Position.after_of_no_newline hline, push_append]

theorem numeralStep_goes {word rest : List Char} {seen : Seen} {c e : Cursor}
    (hruns : Runs hex seen.part word rest) (hsaves : Saves word rest c e)
    (hds : c.place.rest = ch :: ds) :
    Goes (fun seen' c' => c'.place.rest.length ≤ ds.length ∧
        ∃ word', Runs hex seen'.part word' rest ∧ Saves word' rest c' e)
      (· = .ok () e) ((numeralStep hex ch seen : Scanner (Seen ⊕ Unit)) c) := by
  have hrest : word ++ rest = ch :: ds := by
    obtain ⟨source, p, b, rfl, -⟩ := hsaves
    exact hds
  have hfirst : (word ++ rest).head? = some ch := by rw [hrest, List.head?_cons]
  have hhead := hruns.head hfirst
  rcases numeralStep_eq hex ch seen with ⟨hnext, hstep⟩ | ⟨hnext, hstep⟩ | ⟨seen', hnext, hstep⟩
  · rw [if_pos hnext] at hhead
    subst hhead
    rw [hstep, hsaves.nil]
    rfl
  · rw [hnext, if_neg (Option.some_ne_none _)] at hhead
    obtain ⟨word', rfl⟩ := hhead
    obtain ⟨-, rfl⟩ := List.cons.inj hrest
    obtain ⟨c', hsave, hc', hsaves⟩ := hsaves.cons (isNewline_of_next? hnext)
    have hruns := hruns.cons hnext
    rw [hstep, bind_ok hsave]
    have hpeek : (saveSign : Scanner Unit) c' =
        (if (word' ++ rest).head?.any isSign then saveAndAdvance else pure () : Scanner Unit) c' := by
      rw [← hc']
      rfl
    cases hsign : (word' ++ rest).head?.any isSign with
    | false =>
      rw [hsign, if_neg Bool.false_ne_true] at hpeek
      rw [bind_ok hpeek]
      exact ⟨hc' ▸ Nat.le_refl _, word', hruns.exponent hsign, hsaves⟩
    | true =>
      obtain ⟨sign, hhead, hsign'⟩ := (Option.any_eq_true _ _).1 hsign
      have hnext := @next?_mark_of_isSign sign hex hsign'
      have hword := hruns.head hhead
      rw [hnext, if_neg (Option.some_ne_none _)] at hword
      obtain ⟨word, rfl⟩ := hword
      obtain ⟨c'', hsave, hc'', hsaves⟩ := hsaves.cons (isNewline_of_next? hnext)
      rw [hsign, if_pos rfl, hsave] at hpeek
      rw [bind_ok hpeek]
      exact ⟨hc'' ▸ Nat.le_succ _, word, hruns.cons hnext, hsaves⟩
  · rw [hnext, if_neg (Option.some_ne_none _)] at hhead
    obtain ⟨word', rfl⟩ := hhead
    obtain ⟨-, rfl⟩ := List.cons.inj hrest
    obtain ⟨c', hsave, hc', hsaves⟩ := hsaves.cons (isNewline_of_next? hnext)
    rw [hstep, bind_ok hsave]
    exact ⟨hc' ▸ Nat.le_refl _, word', hruns.cons hnext, hsaves⟩

theorem loop_numeralStep {word rest : List Char} {seen : Seen} {c e : Cursor}
    (hruns : Runs hex seen.part word rest) (hsaves : Saves word rest c e) :
    (loop (numeralStep hex) (fun _ => pure ()) seen : Scanner Unit) c = .ok () e := by
  -- Where saving ends, and what is in the buffer there, is the same from everywhere in the word.
  refine @loop_rule _ _ _ _ _ _
    (fun seen' c' => ∃ word', Runs hex seen'.part word' rest ∧ Saves word' rest c' e) (· = .ok () e)
    ⟨word, hruns, hsaves⟩ ?_ fun _ _ _ _ ⟨_, hruns, hsaves⟩ => numeralStep_goes hruns hsaves
  rintro seen c ⟨word, -, hsaves⟩ hnil
  obtain rfl : word = [] := by
    obtain ⟨source, p, b, rfl, -⟩ := hsaves
    exact (List.append_eq_nil_iff.1 hnil).1
  rw [hsaves.nil]
  rfl

theorem saves_word (source word rest : List Char) (p : Position) (b : String) :
    Saves word rest ⟨source, ⟨word ++ rest, p⟩, b⟩
      ⟨source, ⟨rest, p.after word⟩, b ++ String.ofList word⟩ :=
  ⟨source, p, b, rfl, rfl⟩

theorem numeralRest_mirrors {lead word tail rest : List Char}
    (hlead : ∀ c ∈ lead, isNewline c = false) (hword : Runs hex .integer word (tail ++ rest))
    (htail : ∀ c ∈ tail, isNameContinue c = true) (hrest : rest.head?.any isNameContinue = false)
    (hcs : cs = lead ++ (word ++ (tail ++ rest)))
    (hsize : Numeral.size cs = (lead ++ (word ++ tail)).length) :
    Mirrors source ⟨cs, p⟩ ((Lexeme.readNumeral cs).map .ok)
      ((numeralRest hex ⟨cs, p⟩ : Scanner Token)
        ⟨source, ⟨word ++ (tail ++ rest), p.after lead⟩, String.ofList lead⟩) := by
  have hbreaks : Breaks word tail := .of_all hword.isNewline tail
  have hrun : (numeralRest hex ⟨cs, p⟩ : Scanner Token)
      ⟨source, ⟨word ++ (tail ++ rest), p.after lead⟩, String.ofList lead⟩ =
      (token ⟨cs, p⟩ .number (String.ofList (lead ++ (word ++ tail))) : Scanner Token)
        ⟨source, ⟨rest, p.after (lead ++ (word ++ tail))⟩, ""⟩ := by
    rw [numeralRest, bind_ok (loop_numeralStep hword (saves_word ..)),
      bind_ok (saveWhile_eq (fun _ => isNewline_of_isNameContinue) htail hrest),
      bind_ok (takeBuffer_eq ..), Position.after_append_of_breaks (.of_all hlead _),
      Position.after_append_of_breaks hbreaks, String.ofList_append, String.ofList_append,
      String.append_assoc]
  have hcut : cs = lead ++ (word ++ tail) ++ rest := by
    rw [hcs]
    simp only [List.append_assoc]
  rw [hrun, Lexeme.readNumeral, hsize]
  rw [hcut, List.take_left]
  exact mirrors_token rfl

theorem numeral_mirrors (source cs : List Char) (p : Position) :
    Mirrors source ⟨cs, p⟩ ((Lexeme.readNumeral cs).map .ok)
      ((numeral ⟨cs, p⟩ : Scanner Token) ⟨source, ⟨cs, p⟩, ""⟩) := by
  have hhexNext : (hexNext : Scanner Bool) ⟨source, ⟨cs, p⟩, ""⟩ =
      .ok (isHex cs) ⟨source, ⟨cs, p⟩, ""⟩ := rfl
  rw [numeral, bind_ok hhexNext]
  cases hhex : isHex cs with
  | true =>
    obtain ⟨d, ds, rfl, -⟩ := isHex_eq_true hhex
    have hd : isNewline d = false := by
      have hx : d = 'x' ∨ d = 'X' := by simpa [isHex] using hhex
      rcases hx with rfl | rfl <;> rfl
    have hlead : (saveHexMark : Scanner Unit) ⟨source, ⟨'0' :: d :: ds, p⟩, ""⟩ =
        .ok () ⟨source, ⟨ds, p.after ['0', d]⟩, String.ofList ['0', d]⟩ := by
      rw [saveHexMark, bind_ok (saveAndAdvance_char rfl), saveAndAdvance_char hd,
        ← Position.after_of_no_newline rfl, push_eq_append, push_eq_append, String.empty_append,
        ← String.ofList_append]
      rfl
    obtain ⟨word, rest, last, rfl, hrun, hstops⟩ := exists_run true .integer ds
    obtain ⟨tail, rest, rfl, -, htail, hrest⟩ := exists_takeWhile isNameContinue rest
    rw [if_pos rfl, bind_ok hlead]
    have hline : ∀ c ∈ ['0', d], isNewline c = false :=
      List.forall_mem_cons.2 ⟨rfl, List.forall_mem_singleton.2 hd⟩
    exact numeralRest_mirrors hline ⟨last, hrun, hstops⟩ htail hrest rfl
      (@size_append ['0', d] word tail rest _ _ hhex rfl hrun hstops htail hrest)
  | false =>
    obtain ⟨word, rest, last, rfl, hrun, hstops⟩ := exists_run false .integer cs
    obtain ⟨tail, rest, rfl, -, htail, hrest⟩ := exists_takeWhile isNameContinue rest
    rw [if_neg Bool.false_ne_true]
    exact @numeralRest_mirrors source _ p false [] word tail rest (List.forall_mem_nil _)
      ⟨last, hrun, hstops⟩ htail hrest rfl (@size_append [] _ _ _ _ _ hhex rfl hrun hstops htail hrest)

/-! ## Words and punctuation -/

theorem word_mirrors (source cs : List Char) (p : Position) :
    Mirrors source ⟨cs, p⟩ ((Lexeme.readWord cs).map .ok)
      ((word ⟨cs, p⟩ : Scanner Token) ⟨source, ⟨cs, p⟩, ""⟩) := by
  obtain ⟨run, rest, rfl, hrun, hall, hrest⟩ := exists_takeWhile isNameContinue cs
  rw [word, bind_ok (saveWhile_eq (fun _ => isNewline_of_isNameContinue) hall hrest),
    bind_ok (takeBuffer_eq ..), Lexeme.readWord, hrun, String.empty_append]
  dsimp only [Scan.map]
  rw [Lexeme.ofWord]
  cases Symbol.keyword? (String.ofList run) with
  | some keyword => exact mirrors_token rfl
  | none => exact mirrors_token rfl

theorem punctuation_mirrors {s : Symbol} {rest : List Char}
    (hs : Symbol.punctuation? (s.spelling.toList ++ rest) = some s) (hcs : ch :: cs =
      s.spelling.toList ++ rest) :
    Mirrors source ⟨ch :: cs, p⟩ (Lexeme.readPunctuation ch cs)
      ((token ⟨ch :: cs, p⟩ s none : Scanner Token)
        ⟨source, ⟨rest, p.after s.spelling.toList⟩, ""⟩) := by
  rw [Lexeme.readPunctuation, hcs, hs]
  exact mirrors_token (l := { symbol := s }) (String.length_toList ..).symm

/-- The spellings that a second character makes longer, without it. -/
def shorts : List (Char × Char × Symbol) := [
  ('=', '=', .assign), ('<', '=', .less), ('>', '=', .greater), (':', ':', .colon),
  ('.', '.', .dot)]

theorem punctuation?_of_short {second : Char} {s : Symbol} (h : (ch, second, s) ∈ shorts)
    (hcs : cs.head? ≠ some second) : Symbol.punctuation? (ch :: cs) = some s := by
  simp only [shorts, List.mem_cons, List.not_mem_nil, or_false, Prod.mk.injEq] at h
  cases cs with
  | nil =>
    rcases h with ⟨rfl, rfl, rfl⟩ | ⟨rfl, rfl, rfl⟩ | ⟨rfl, rfl, rfl⟩ | ⟨rfl, rfl, rfl⟩ |
      ⟨rfl, rfl, rfl⟩ <;> rfl
  | cons c cs =>
    have hc : second ≠ c := fun hc => hcs (congrArg some hc.symm)
    rcases h with ⟨rfl, rfl, rfl⟩ | ⟨rfl, rfl, rfl⟩ | ⟨rfl, rfl, rfl⟩ | ⟨rfl, rfl, rfl⟩ |
      ⟨rfl, rfl, rfl⟩ <;>
      simp [Symbol.punctuation?, Symbol.punctuation, Symbol.spelling, List.isPrefixOf, hc]

/-- Of two spellings the longer one is taken where it stands. -/
theorem oneOrTwo_mirrors {second : Char} {short long : Symbol} (hch : isNewline ch = false)
    (hsecond : isNewline second = false) (hlong : long.spelling.toList = [ch, second])
    (hshort : short.spelling.toList = [ch])
    (hlongest : ∀ cs, Symbol.punctuation? (ch :: second :: cs) = some long)
    (hpair : (ch, second, short) ∈ shorts) :
    Mirrors source ⟨ch :: cs, p⟩ (Lexeme.readPunctuation ch cs)
      ((oneOrTwo second short long ⟨ch :: cs, p⟩ : Scanner Token) ⟨source, ⟨ch :: cs, p⟩, ""⟩) := by
  rw [oneOrTwo, bind_ok (advance_char hch)]
  by_cases hhead : cs.head? = some second
  · obtain ⟨rest, rfl⟩ := List.head?_eq_some_iff.1 hhead
    rw [bind_ok (eat_same hsecond), if_pos rfl, ← Position.after_of_no_newline hch]
    have hmirrors := @punctuation_mirrors source (second :: rest) p ch long rest
    rw [hlong] at hmirrors
    exact hmirrors (hlongest rest) rfl
  · rw [bind_ok (eat_other hhead), if_neg Bool.false_ne_true]
    have hmirrors := @punctuation_mirrors source cs p ch short cs
    rw [hshort] at hmirrors
    exact hmirrors (punctuation?_of_short hpair hhead) rfl

theorem dots_mirrors (source cs : List Char) (p : Position) :
    Mirrors source ⟨'.' :: cs, p⟩ (Lexeme.readPunctuation '.' cs)
      ((dots ⟨'.' :: cs, p⟩ : Scanner Token) ⟨source, ⟨'.' :: cs, p⟩, ""⟩) := by
  have hdot : isNewline '.' = false := by decide
  have htwo : ∀ {cs : List Char}, cs.head? ≠ some '.' →
      Symbol.punctuation? ('.' :: '.' :: cs) = some .concat := by
    intro cs hcs
    cases cs with
    | nil => rfl
    | cons c cs =>
      have hc : '.' ≠ c := fun hc => hcs (congrArg some hc.symm)
      simp [Symbol.punctuation?, Symbol.punctuation, Symbol.spelling, List.isPrefixOf, hc]
  rw [dots, bind_ok (advance_char hdot)]
  by_cases hhead : cs.head? = some '.'
  · obtain ⟨cs, rfl⟩ := List.head?_eq_some_iff.1 hhead
    rw [bind_ok (eat_same hdot), if_pos rfl]
    by_cases hhead : cs.head? = some '.'
    · obtain ⟨rest, rfl⟩ := List.head?_eq_some_iff.1 hhead
      rw [bind_ok (eat_same hdot), if_pos rfl]
      exact @punctuation_mirrors source _ p '.' .ellipsis rest rfl rfl
    · rw [bind_ok (eat_other hhead), if_neg Bool.false_ne_true]
      exact @punctuation_mirrors source _ p '.' .concat cs (htwo hhead) rfl
  · rw [bind_ok (eat_other hhead), if_neg Bool.false_ne_true]
    exact @punctuation_mirrors source _ p '.' .dot cs
      (punctuation?_of_short (by decide) hhead) rfl

theorem notEqual_mirrors (source cs : List Char) (p : Position) :
    Mirrors source ⟨'~' :: cs, p⟩ (Lexeme.readPunctuation '~' cs)
      ((do
        advance
        if ← eat '=' then token ⟨'~' :: cs, p⟩ .notEqual else fail (.unexpectedCharacter '~') :
          Scanner Token) ⟨source, ⟨'~' :: cs, p⟩, ""⟩) := by
  rw [bind_ok (advance_char (by decide))]
  by_cases hhead : cs.head? = some '='
  · obtain ⟨rest, rfl⟩ := List.head?_eq_some_iff.1 hhead
    rw [bind_ok (eat_same (by decide)), if_pos rfl]
    exact @punctuation_mirrors source _ p '~' .notEqual rest rfl rfl
  · have hnone : Symbol.punctuation? ('~' :: cs) = none := by
      cases cs with
      | nil => rfl
      | cons c cs =>
        have hc : '=' ≠ c := fun hc => hhead (congrArg some hc.symm)
        simp [Symbol.punctuation?, Symbol.punctuation, Symbol.spelling, List.isPrefixOf, hc]
    rw [bind_ok (eat_other hhead), if_neg Bool.false_ne_true, Lexeme.readPunctuation, hnone]
    exact @mirrors_fail source p ['~'] cs 1 _ rfl

theorem punctuation?_of_single {s : Symbol} (h : single? ch = some s) (cs : List Char) :
    isNewline ch = false ∧ s.spelling.toList = [ch] ∧
      Symbol.punctuation? (ch :: cs) = some s := by
  rw [single?] at h
  have hspelling : s.spelling.toList = [ch] := by simpa using List.find?_some h
  have hmem : s ∈ singles := List.mem_of_find?_eq_some h
  have hread : (∀ cs, Symbol.punctuation? (s.spelling.toList ++ cs) = some s) ∧
      s.spelling.toList.any isNewline = false := by
    simp only [singles, List.mem_cons, List.not_mem_nil, or_false] at hmem
    rcases hmem with rfl | rfl | rfl | rfl | rfl | rfl | rfl | rfl | rfl | rfl | rfl | rfl | rfl <;>
      exact ⟨fun _ => rfl, rfl⟩
  rw [hspelling] at hread
  exact ⟨by simpa using hread.2, hspelling, hread.1 cs⟩

/-- What punctuation begins with that does not stand alone. -/
def leads : List Char := ['=', '<', '>', ':', '~', '.', '-', '[']

theorem punctuation?_of_no_single (hlead : ch ∉ leads) (h : single? ch = none) (cs : List Char) :
    Symbol.punctuation? (ch :: cs) = none := by
  have hfirst : ∀ s ∈ Symbol.punctuation,
      (s ∈ singles ∧ s.spelling.toList.length = 1) ∨ s.spelling.toList.headD 'x' ∈ leads := by
    decide
  refine List.find?_eq_none.2 fun s hs hstands => ?_
  obtain ⟨rest, hrest⟩ := List.isPrefixOf_iff_prefix.1 hstands
  cases hspelling : s.spelling.toList with
  | nil =>
    have hall : ∀ s ∈ Symbol.punctuation, s.spelling.toList ≠ [] := by decide
    exact hall s hs hspelling
  | cons c word =>
    rw [hspelling, List.cons_append] at hrest
    obtain ⟨rfl, -⟩ := List.cons.inj hrest
    have hc := hfirst s hs
    rw [hspelling] at hc
    rcases hc with ⟨hsingle, hlength⟩ | hc
    · obtain rfl := List.length_eq_zero_iff.1 (Nat.succ.inj hlength)
      refine List.find?_eq_none.1 h s hsingle ?_
      rw [hspelling]
      exact beq_self_eq_true _
    · exact hlead hc

/-! ## All lexemes -/

theorem lexeme_mirrors (source cs : List Char) (p : Position) (hminus : ch ≠ '-') :
    Mirrors source ⟨ch :: cs, p⟩ (Lexeme.read (ch :: cs))
      ((lexeme ch ⟨ch :: cs, p⟩ : Scanner Token) ⟨source, ⟨ch :: cs, p⟩, ""⟩) := by
  rw [lexeme]
  by_cases hbracket : ch = '['
  · subst hbracket
    rw [if_pos rfl, Lexeme.read_bracket]
    exact bracket_mirrors source cs p
  rw [if_neg hbracket]
  by_cases hassign : ch = '='
  · subst hassign
    rw [if_pos rfl, Lexeme.read_punctuation (by decide) (by decide) rfl (by decide +kernel)]
    exact oneOrTwo_mirrors rfl rfl rfl rfl (fun _ => rfl) (by decide)
  rw [if_neg hassign]
  by_cases hless : ch = '<'
  · subst hless
    rw [if_pos rfl, Lexeme.read_punctuation (by decide) (by decide) rfl (by decide +kernel)]
    exact oneOrTwo_mirrors rfl rfl rfl rfl (fun _ => rfl) (by decide)
  rw [if_neg hless]
  by_cases hgreater : ch = '>'
  · subst hgreater
    rw [if_pos rfl, Lexeme.read_punctuation (by decide) (by decide) rfl (by decide +kernel)]
    exact oneOrTwo_mirrors rfl rfl rfl rfl (fun _ => rfl) (by decide)
  rw [if_neg hgreater]
  by_cases hcolon : ch = ':'
  · subst hcolon
    rw [if_pos rfl, Lexeme.read_punctuation (by decide) (by decide) rfl (by decide +kernel)]
    exact oneOrTwo_mirrors rfl rfl rfl rfl (fun _ => rfl) (by decide)
  rw [if_neg hcolon]
  by_cases htilde : ch = '~'
  · subst htilde
    rw [if_pos rfl, Lexeme.read_punctuation (by decide) (by decide) rfl (by decide +kernel)]
    exact notEqual_mirrors source cs p
  rw [if_neg htilde]
  by_cases hdot : ch = '.'
  · subst hdot
    have hsecond : (peekSecond : Scanner (Option Char)) ⟨source, ⟨'.' :: cs, p⟩, ""⟩ =
        .ok cs.head? ⟨source, ⟨'.' :: cs, p⟩, ""⟩ := by
      rw [List.head?_eq_getElem?]
      rfl
    rw [if_pos rfl, bind_ok hsecond]
    cases hdigit : cs.head?.any Char.isDigit with
    | true =>
      rw [if_pos rfl, Lexeme.read_numeral (by simp [Lexeme.beginsNumeral, hdigit])]
      exact numeral_mirrors source _ p
    | false =>
      rw [if_neg Bool.false_ne_true, Lexeme.read_punctuation (by decide) (by decide)
        (by simp [Lexeme.beginsNumeral, hdigit]) (by decide +kernel)]
      exact dots_mirrors source cs p
  rw [if_neg hdot]
  by_cases hquote : ch = '"' ∨ ch = '\''
  · rw [if_pos hquote, Lexeme.read_quoted hquote]
    exact quoted_mirrors source cs p hquote
  rw [if_neg hquote]
  have hnumeral : Lexeme.beginsNumeral ch cs = ch.isDigit := by
    rw [Lexeme.beginsNumeral, beq_false_of_ne hdot, Bool.false_and, Bool.or_false]
  cases hdigit : ch.isDigit with
  | true =>
    rw [if_pos rfl, Lexeme.read_numeral (hnumeral.trans hdigit)]
    exact numeral_mirrors source _ p
  | false =>
  rw [if_neg Bool.false_ne_true]
  cases hname : isNameStart ch with
  | true =>
    rw [if_pos rfl, Lexeme.read_word hname]
    exact word_mirrors source _ p
  | false =>
  rw [if_neg Bool.false_ne_true,
    Lexeme.read_punctuation hbracket hquote (hnumeral.trans hdigit) hname]
  cases hsingle : single? ch with
  | some s =>
    obtain ⟨hline, hspelling, hpunctuation⟩ := punctuation?_of_single hsingle cs
    have hmirrors := @punctuation_mirrors source cs p ch s cs
    rw [hspelling] at hmirrors
    dsimp only
    rw [bind_ok (advance_char hline)]
    exact hmirrors hpunctuation rfl
  | none =>
    have hlead : ch ∉ leads := by simp [leads, *]
    rw [Lexeme.readPunctuation, punctuation?_of_no_single hlead hsingle, if_neg htilde]
    exact @mirrors_fail source p [] (ch :: cs) 0 _ rfl

end Scanner

end LuaSource
