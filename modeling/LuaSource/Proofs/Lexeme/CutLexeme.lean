-- SUMMARY: Each kind of lexeme stays the same when the text behind it is cut off.
import LuaSource.Proofs.Lexeme.Cut

/-!
# Cutting behind each kind of lexeme

A quoted text ends with its quote and a long bracket with its closer; words, numerals and
punctuation end where a space does not go on with them.
-/

namespace LuaSource

/-! ## Quoted texts -/

namespace Quoted

theorem readDecimal_cut {word rest : List Char} {n : Nat} {d : Except LexError Char}
    (h : readDecimal (word ++ rest) = ⟨n, d⟩) (hn : n < word.length) (r : List Char) :
    readDecimal (word ++ r) = ⟨n, d⟩ := by
  have hsize : (((word ++ rest).take 3).takeWhile Char.isDigit).length = n := congrArg Scan.size h
  have hdigits : ((word ++ r).take 3).takeWhile Char.isDigit =
      ((word ++ rest).take 3).takeWhile Char.isDigit := by
    by_cases hlong : 3 ≤ word.length
    · rw [List.take_append_of_le_length hlong, List.take_append_of_le_length hlong]
    · have hshort : word.take 3 = word := List.take_of_length_le (by omega)
      rw [List.take_append, List.take_append, hshort]
      rw [List.take_append, hshort] at hsize
      exact takeWhile_append_of_lt (hsize ▸ hn) _
  rw [← h, readDecimal, readDecimal, hdigits]

theorem readHex_cut {word rest : List Char} {n : Nat} {d : Char}
    (h : readHex (word ++ rest) = ⟨n, .ok d⟩) (hn : n < word.length) (r : List Char) :
    readHex (word ++ r) = ⟨n, .ok d⟩ := by
  have hsize : (((word ++ rest).take 2).takeWhile isHexDigit).length = n := congrArg Scan.size h
  have htwo : (((word ++ rest).take 2).takeWhile isHexDigit).length = 2 := by
    have hresult := congrArg Scan.result h
    rw [readHex] at hresult
    dsimp only at hresult
    split at hresult
    · assumption
    · cases hresult
  have hlong : 2 ≤ word.length := by omega
  rw [readHex, List.take_append_of_le_length hlong] at h ⊢
  rw [List.take_append_of_le_length hlong] at htwo
  rw [if_pos htwo] at h ⊢
  exact h

theorem readEscape_cut {word rest : List Char} {n : Nat} {d : Char}
    (h : readEscape (word ++ rest) = ⟨n, .ok d⟩) (hn : n < word.length) (r : List Char) :
    readEscape (word ++ r) = ⟨n, .ok d⟩ := by
  cases word with
  | nil => cases hn
  | cons c cs =>
    rw [List.cons_append, readEscape] at h ⊢
    split at h
    · exact h
    · by_cases hnewline : isNewline c = true
      · rw [if_pos hnewline] at h ⊢
        rw [← h]
        cases cs with
        | nil =>
          -- A newline takes up a character at least, and there is none left behind it.
          injection h with hsize _
          have hpos : newlineSize (c :: ([] ++ rest)) ≠ 0 := by
            rw [Ne, newlineSize_eq_zero_iff, hnewline]
            exact Bool.noConfusion
          rw [List.length_singleton] at hn
          omega
        | cons d cs => rfl
      · rw [if_neg hnewline] at h ⊢
        by_cases hx : c = 'x'
        · rw [if_pos hx] at h ⊢
          injection h with hsize hresult
          have hcut := readHex_cut (n := (readHex (cs ++ rest)).size) (d := d) (r := r)
            (by rw [← hresult]) (by rw [List.length_cons] at hn; omega)
          rw [hcut, Scan.after, hsize]
        · rw [if_neg hx] at h ⊢
          by_cases hdigit : c.isDigit = true
          · rw [if_pos hdigit] at h ⊢
            exact @readDecimal_cut (c :: cs) _ _ _ h hn r
          · rw [if_neg hdigit] at h ⊢
            exact h

/-- The characters that an escape takes up are passed before the quote is found. -/
theorem readBody_cut {quote : Char} {skip : Nat} {raw value cs v : List Char} {n : Nat}
    (h : readBody quote skip raw value cs = ⟨n, .ok v⟩) :
    ∃ word rest, cs = word ++ rest ∧ n = raw.length + word.length ∧ skip < word.length ∧
      ∀ r, readBody quote skip raw value (word ++ r) = ⟨n, .ok v⟩ := by
  induction cs generalizing skip raw value with
  | nil => cases h
  | cons c cs ih =>
    -- Reading goes on behind the character.
    have hgo : ∀ {skip' : Nat} {value' : List Char},
        readBody quote skip' (c :: raw) value' cs = ⟨n, .ok v⟩ →
        (∀ word rest, cs = word ++ rest → skip' < word.length → skip ≤ skip' + 1 →
          ∀ r, readBody quote skip raw value (c :: (word ++ r)) =
            readBody quote skip' (c :: raw) value' (word ++ r)) → skip ≤ skip' + 1 →
        ∃ word rest, c :: cs = word ++ rest ∧ n = raw.length + word.length ∧
          skip < word.length ∧ ∀ r, readBody quote skip raw value (word ++ r) = ⟨n, .ok v⟩ := by
      intro skip' value' h' hstep hskip
      obtain ⟨word, rest, rfl, rfl, hlt, hcut⟩ := ih h'
      refine ⟨c :: word, rest, rfl, ?_, ?_, fun r => ?_⟩
      · rw [List.length_cons, List.length_cons]
        omega
      · rw [List.length_cons]
        omega
      · rw [List.cons_append, hstep word rest rfl hlt hskip, hcut]
    cases skip with
    | succ skip =>
      rw [readBody] at h
      exact hgo h (fun _ _ _ _ _ r => by rw [readBody]) (Nat.le_refl _)
    | zero =>
      rw [readBody] at h
      by_cases hquote : c = quote
      · rw [if_pos hquote] at h
        cases h
        refine ⟨[c], cs, rfl, rfl, Nat.one_pos, fun r => ?_⟩
        rw [List.singleton_append, readBody, if_pos hquote]
      · rw [if_neg hquote] at h
        by_cases hnewline : isNewline c = true
        · rw [if_pos hnewline] at h
          cases h
        · rw [if_neg hnewline] at h
          by_cases hescape : c = '\\'
          · rw [if_pos hescape] at h
            split at h
            · next k d hd =>
              refine hgo h (fun word rest hcs hlt _ r => ?_) (Nat.zero_le _)
              rw [hcs] at hd
              rw [readBody, if_neg hquote, if_neg hnewline, if_pos hescape,
                readEscape_cut hd hlt r]
            · cases h
          · rw [if_neg hescape] at h
            refine hgo h (fun word rest _ _ _ r => ?_) (Nat.zero_le _)
            rw [readBody, if_neg hquote, if_neg hnewline, if_neg hescape]

theorem read_cut {quote : Char} {cs v : List Char} {n : Nat} (h : read quote cs = ⟨n, .ok v⟩) :
    ∃ word rest, cs = word ++ rest ∧ n = 1 + word.length ∧
      ∀ r, read quote (word ++ r) = ⟨n, .ok v⟩ := by
  obtain ⟨word, rest, hcs, hn, -, hcut⟩ := readBody_cut h
  exact ⟨word, rest, hcs, hn, hcut⟩

end Quoted

/-! ## Numerals -/

namespace Numeral

/-- The part in which a numeral is when characters that go on with it have been read. -/
def Part.run? (hex : Bool) : Part → List Char → Option Part
  | part, [] => some part
  | part, c :: cs => (part.next? hex c).bind fun next => next.run? hex cs

theorem Part.run?_append (hex : Bool) (part : Part) (cs ds : List Char) :
    part.run? hex (cs ++ ds) = (part.run? hex cs).bind fun next => next.run? hex ds := by
  induction cs generalizing part with
  | nil => rfl
  | cons c cs ih =>
    rw [List.cons_append, run?, run?, Option.bind_assoc]
    exact congrArg _ (funext fun next => ih next)

/-- Where a numeral ends that was read up to a part. -/
def Part.Stops (hex : Bool) (part : Part) (cs : List Char) : Prop :=
  ∀ c ∈ cs.head?, part.next? hex c = none

theorem Part.Stops.resume {hex : Bool} {part : Part} {rest r : List Char}
    (h : part.Stops hex rest) (hr : Resumes rest r) : part.Stops hex r := by
  intro c hc
  rcases hr c hc with (rfl | rfl) | hc
  · cases hex <;> cases part <;> decide
  · cases hex <;> cases part <;> decide
  · exact h c hc

theorem runSize_append {hex : Bool} {part last : Part} {word r : List Char}
    (h : part.run? hex word = some last) (hr : last.Stops hex r) (n : Nat) :
    runSize hex part n (word ++ r) = n + word.length := by
  induction word generalizing part n with
  | nil =>
    cases h
    cases r with
    | nil => rfl
    | cons c cs =>
      rw [List.nil_append, runSize, hr c rfl]
      rfl
  | cons c cs ih =>
    rw [Part.run?] at h
    obtain ⟨next, hnext, hrun⟩ := Option.bind_eq_some_iff.1 h
    rw [List.cons_append, runSize, hnext]
    dsimp only
    rw [ih hrun, List.length_cons, Nat.add_assoc, Nat.add_comm 1]

theorem exists_run (hex : Bool) (part : Part) (cs : List Char) :
    ∃ word rest last, cs = word ++ rest ∧ part.run? hex word = some last ∧
      last.Stops hex rest := by
  induction cs generalizing part with
  | nil => exact ⟨[], [], part, rfl, rfl, nofun⟩
  | cons c cs ih =>
    cases hnext : part.next? hex c with
    | none =>
      refine ⟨[], c :: cs, part, rfl, rfl, fun d hd => ?_⟩
      cases hd
      exact hnext
    | some next =>
      obtain ⟨word, rest, last, rfl, hrun, hstops⟩ := ih next
      refine ⟨c :: word, rest, last, rfl, ?_, hstops⟩
      rw [Part.run?, hnext]
      exact hrun

/-- A numeral is what goes on with its first part, behind `0x` if it is hexadecimal, and the name
characters that stick to it. -/
theorem size_append {lead word tail r : List Char} {last : Part} {hex : Bool}
    (hhex : isHex (lead ++ (word ++ (tail ++ r))) = hex)
    (hlead : lead.length = if hex then 2 else 0)
    (hrun : Part.integer.run? hex word = some last) (hstops : last.Stops hex (tail ++ r))
    (htail : ∀ c ∈ tail, isNameContinue c = true) (hr : r.head?.any isNameContinue = false) :
    size (lead ++ (word ++ (tail ++ r))) = (lead ++ (word ++ tail)).length := by
  have hsize : (if isHex (lead ++ (word ++ (tail ++ r))) then
      runSize true .integer 2 ((lead ++ (word ++ (tail ++ r))).drop 2)
      else runSize false .integer 0 (lead ++ (word ++ (tail ++ r)))) =
      (lead ++ word).length := by
    rw [hhex, List.length_append]
    cases hex with
    | false =>
      obtain rfl := List.length_eq_zero_iff.1 hlead
      rw [if_neg Bool.false_ne_true, List.nil_append, runSize_append hrun hstops]
      rfl
    | true =>
      have hlead : lead.length = 2 := hlead
      rw [if_pos rfl, ← hlead, List.drop_left, hlead, runSize_append hrun hstops]
  rw [size, hsize, ← List.append_assoc, List.drop_left, takeWhile_append htail hr]
  simp only [List.length_append, Nat.add_assoc]

theorem next?_integer_ne_none {c : Char} {cs : List Char} (h : Lexeme.beginsNumeral c cs = true) :
    Part.integer.next? false c ≠ none := by
  rw [Part.next?]
  split
  · exact Option.some_ne_none _
  · split
    · exact Option.some_ne_none _
    · next hdot =>
      have hdigit : c.isDigit = true := by simpa [Lexeme.beginsNumeral, hdot] using h
      rw [isMantissaDigit, if_neg Bool.false_ne_true, if_pos hdigit]
      exact Option.some_ne_none _

theorem next?_fraction_ne_none {c : Char} (h : c.isDigit = true) :
    Part.fraction.next? false c ≠ none := by
  rw [Part.next?]
  split
  · exact Option.some_ne_none _
  · rw [isMantissaDigit, if_neg Bool.false_ne_true, if_pos h]
    exact Option.some_ne_none _

/-- A numeral that begins with a point takes up the digit behind it. -/
theorem one_lt_length_of_run {c : Char} {cs word rest : List Char} {last : Part}
    (h : Lexeme.beginsNumeral c cs = true) (hc : c.isDigit = false) (hcs : c :: cs = word ++ rest)
    (hword : word ≠ []) (hrun : Part.integer.run? false word = some last)
    (hlast : last.Stops false rest) : 1 < word.length := by
  rw [Lexeme.beginsNumeral, hc, Bool.false_or] at h
  obtain ⟨hdot, hdigit⟩ := Bool.and_eq_true_iff.1 h
  obtain rfl : c = '.' := eq_of_beq hdot
  rcases word with _ | ⟨d, _ | ⟨e, ds⟩⟩
  · exact absurd rfl hword
  · obtain ⟨rfl, rfl⟩ := List.cons.inj hcs
    cases hrun
    obtain ⟨d, hd, hdigit⟩ := (Option.any_eq_true _ _).1 hdigit
    exact absurd (hlast d hd) (next?_fraction_ne_none hdigit)
  · exact Nat.succ_lt_succ (Nat.succ_pos _)

theorem isHex_cut {word rest r : List Char} (hword : word ≠ [])
    (h : isHex (word ++ rest) = false) (hr : Resumes rest r) : isHex (word ++ r) = false := by
  rcases word with _ | ⟨c, _ | ⟨d, ds⟩⟩
  · exact absurd rfl hword
  · cases r with
    | nil => simp [isHex]
    | cons d ds =>
      rcases hr d rfl with (rfl | rfl) | hd
      · simp [isHex]
      · simp [isHex]
      · obtain ⟨rest, rfl⟩ := List.head?_eq_some_iff.1 hd
        exact h
  · exact h

theorem isHex_eq_true {cs : List Char} (h : isHex cs = true) :
    ∃ d ds, cs = '0' :: d :: ds ∧ ∀ ds', isHex ('0' :: d :: ds') = true := by
  rcases cs with _ | ⟨c, _ | ⟨d, ds⟩⟩
  · cases h
  · simp [isHex] at h
  · obtain ⟨hc, -⟩ := Bool.and_eq_true_iff.1 h
    obtain rfl : c = '0' := by simpa using hc
    exact ⟨d, ds, rfl, fun _ => h⟩

theorem size_cut {c : Char} {cs : List Char} (h : Lexeme.beginsNumeral c cs = true) :
    ∃ word rest, c :: cs = word ++ rest ∧ word ≠ [] ∧ (c.isDigit = true ∨ 1 < word.length) ∧
      size (c :: cs) = word.length ∧
      ∀ r, Resumes rest r → size (word ++ r) = word.length := by
  have hname : isNameContinue ' ' = false ∧ isNameContinue '\n' = false := by decide
  cases hhex : isHex (c :: cs) with
  | true =>
    obtain ⟨d, ds, hcs, halways⟩ := isHex_eq_true hhex
    obtain ⟨word, rest, last, rfl, hrun, hlast⟩ := exists_run true .integer ds
    obtain ⟨tail, behind, rfl, -, hall, hbehind⟩ := exists_takeWhile isNameContinue rest
    have hsize : ∀ r, last.Stops true (tail ++ r) → r.head?.any isNameContinue = false →
        size (['0', d] ++ (word ++ (tail ++ r))) = (['0', d] ++ (word ++ tail)).length :=
      fun r hr hr' => size_append (halways _) rfl hrun hr hall hr'
    refine ⟨['0', d] ++ (word ++ tail), behind, ?_, nofun, .inr ?_, ?_, fun r hr => ?_⟩
    · rw [hcs]
      simp
    · simp only [List.length_append, List.length_cons]
      omega
    · rw [hcs]
      exact hsize behind hlast hbehind
    · rw [List.append_assoc, List.append_assoc]
      exact hsize r (hlast.resume hr.append) (hr.any hname hbehind)
  | false =>
    obtain ⟨word, rest, last, hcs, hrun, hlast⟩ := exists_run false .integer (c :: cs)
    obtain ⟨tail, behind, rfl, -, hall, hbehind⟩ := exists_takeWhile isNameContinue rest
    have hword : word ≠ [] := by
      rintro rfl
      cases hrun
      refine next?_integer_ne_none h (hlast c ?_)
      rw [List.nil_append] at hcs
      rw [← hcs]
      rfl
    have hsize : ∀ r, isHex (word ++ (tail ++ r)) = false → last.Stops false (tail ++ r) →
        r.head?.any isNameContinue = false →
        size (word ++ (tail ++ r)) = (word ++ tail).length :=
      fun r hr hr' hr'' => @size_append [] _ _ _ _ _ hr rfl hrun hr' hall hr''
    refine ⟨word ++ tail, behind, ?_, ?_, ?_, ?_, fun r hr => ?_⟩
    · rw [hcs, List.append_assoc]
    · exact fun hnil => hword (List.append_eq_nil_iff.1 hnil).1
    · cases hdigit : c.isDigit with
      | true => exact .inl rfl
      | false =>
        have hlong := one_lt_length_of_run h hdigit hcs hword hrun hlast
        rw [List.length_append]
        exact .inr (by omega)
    · rw [hcs]
      exact hsize behind (hcs ▸ hhex) hlast hbehind
    · rw [List.append_assoc]
      refine hsize r ?_ (hlast.resume hr.append) (hr.any hname hbehind)
      rw [← List.append_assoc]
      refine @isHex_cut _ behind _ (fun hnil => hword (List.append_eq_nil_iff.1 hnil).1) ?_ hr
      rw [List.append_assoc, ← hcs, hhex]

end Numeral

/-! ## Punctuation -/

theorem Symbol.punctuation?_resume {s : Symbol} (hs : s ∈ punctuation) {rest r : List Char}
    (h : punctuation? (s.spelling.toList ++ rest) = some s) (hr : Resumes rest r) :
    punctuation? (s.spelling.toList ++ r) = some s := by
  cases r with
  | nil => rw [List.append_nil, punctuation?_spelling hs]
  | cons c cs =>
    simp only [punctuation, List.mem_cons, List.not_mem_nil, or_false] at hs
    rcases hr c rfl with hc | hc
    · rcases hs with rfl | rfl | rfl | rfl | rfl | rfl | rfl | rfl | rfl | rfl | rfl | rfl | rfl |
        rfl | rfl | rfl | rfl | rfl | rfl | rfl | rfl | rfl | rfl | rfl | rfl | rfl | rfl <;>
        rcases hc with rfl | rfl <;> rfl
    · -- The point is the only mark that two more characters could go on with.
      obtain ⟨ds, rfl⟩ := List.head?_eq_some_iff.1 hc
      rcases hs with rfl | rfl | rfl | rfl | rfl | rfl | rfl | rfl | rfl | rfl | rfl | rfl | rfl |
        rfl | rfl | rfl | rfl | rfl | rfl | rfl | rfl | rfl | rfl | rfl | rfl | rfl | rfl
      case inr.inr.inr.inl =>
        simp [punctuation?, punctuation, spelling, List.isPrefixOf] at h ⊢
        exact ⟨.inl h.2, h.2⟩
      all_goals
        first
        | rfl
        | simpa [punctuation?, punctuation, spelling, List.isPrefixOf] using h

theorem Symbol.punctuation?_eq_some {cs : List Char} {s : Symbol} (h : punctuation? cs = some s) :
    s ∈ punctuation ∧ ∃ rest, cs = s.spelling.toList ++ rest := by
  rw [punctuation?] at h
  refine ⟨List.mem_of_find?_eq_some h, ?_⟩
  have hprefix := List.find?_some h
  obtain ⟨rest, hrest⟩ := List.isPrefixOf_iff_prefix.1 hprefix
  exact ⟨rest, hrest.symm⟩

/-! ## Lexemes -/

namespace Lexeme

/-- The scan reads `n` characters from `c` on, and the same ones where the text behind them is cut
off. -/
def Cuts {α : Type} (f : List Char → Scan (Except LexError α)) (cs : List Char) (n : Nat) (a : α) :
    Prop :=
  ∃ word rest, cs = word ++ rest ∧ n = word.length + 1 ∧
    ∀ r, Resumes rest r → f (word ++ r) = ⟨n, .ok a⟩

theorem readBracket_cut {cs : List Char} {n : Nat} {l : Lexeme}
    (h : readBracket ('[' :: cs) = ⟨n, .ok l⟩) :
    Cuts (fun cs => readBracket ('[' :: cs)) cs n l := by
  rw [readBracket] at h
  split at h
  · next level hlevel =>
    obtain ⟨behind, hbehind⟩ := LongBracket.opened?_eq_some hlevel
    rw [hbehind, ← LongBracket.length_opener level, List.drop_left] at h
    split at h
    · next s hs =>
      obtain ⟨word, rest, rfl, hword, hread⟩ := LongBracket.read?_cut hs
      refine ⟨List.replicate level '=' ++ '[' :: word, rest, ?_, ?_, fun r _ => ?_⟩
      · simpa [LongBracket.opener] using hbehind
      · injection h with hsize _
        rw [← hsize, LongBracket.length_opener]
        simp
        omega
      · have htext : '[' :: (List.replicate level '=' ++ '[' :: word ++ r) =
            LongBracket.opener level ++ (word ++ r) := by simp [LongBracket.opener]
        dsimp only
        rw [htext, readBracket, LongBracket.opened?_opener_append]
        dsimp only
        rw [← LongBracket.length_opener level, List.drop_left, hread]
        exact h
    · cases h
  · next hopened =>
    split at h
    · next hzero =>
      cases h
      refine ⟨[], cs, rfl, rfl, fun r hr => ?_⟩
      have hrun : LongBracket.equalsRun r = 0 := by
        have hequals := any_head?_of_takeWhile_eq_nil (List.length_eq_zero_iff.1 hzero)
        rw [LongBracket.equalsRun, takeWhile_eq_nil (hr.any (by decide) hequals), List.length_nil]
      have hclosed : LongBracket.opened? ('[' :: r) = none := by
        rw [LongBracket.opened?, hrun, List.drop_zero, if_neg]
        rintro ⟨-, hhead⟩
        rcases hr _ hhead with hspace | hhead
        · simp at hspace
        · rw [LongBracket.opened?, show LongBracket.equalsRun cs = 0 from hzero, List.drop_zero,
            if_pos ⟨rfl, hhead⟩] at hopened
          cases hopened
      dsimp only
      rw [List.nil_append, readBracket, hclosed]
      dsimp only
      rw [List.tail_cons, hrun]
    · cases h

theorem readQuoted_cut {quote : Char} {cs : List Char} {n : Nat} {l : Lexeme}
    (h : readQuoted quote cs = ⟨n, .ok l⟩) : Cuts (readQuoted quote) cs n l := by
  obtain ⟨m, result, hread⟩ : ∃ m result, Quoted.read quote cs = ⟨m, result⟩ := ⟨_, _, rfl⟩
  rw [readQuoted, hread] at h
  cases result with
  | error e => cases h
  | ok v =>
    obtain ⟨word, rest, rfl, hm, hcut⟩ := Quoted.read_cut hread
    injection h with hn hl
    refine ⟨word, rest, rfl, by rw [← hn, Nat.add_comm]; exact hm, fun r _ => ?_⟩
    rw [readQuoted, hcut, ← hn, ← hl]
    rfl

theorem readNumeral_cut {c : Char} {cs : List Char} (h : beginsNumeral c cs = true) :
    ∃ word rest, cs = word ++ rest ∧ (readNumeral (c :: cs)).size = word.length + 1 ∧
      (∀ r, beginsNumeral c (word ++ r) = true) ∧
      ∀ r, Resumes rest r → readNumeral (c :: (word ++ r)) = readNumeral (c :: cs) := by
  obtain ⟨word, rest, hcs, hword, hlong, hsize, hcut⟩ := Numeral.size_cut h
  cases word with
  | nil => exact absurd rfl hword
  | cons d word =>
    rw [List.cons_append] at hcs
    obtain ⟨rfl, rfl⟩ := List.cons.inj hcs
    refine ⟨word, rest, rfl, hsize, fun r => ?_, fun r hr => ?_⟩
    · rcases hlong with hdigit | hlong
      · rw [beginsNumeral, hdigit, Bool.true_or]
      · cases word with
        | nil => exact absurd hlong (Nat.lt_irrefl 1)
        | cons d ds => exact h
    have htake : ∀ r : List Char, (c :: (word ++ r)).take (word.length + 1) = c :: word := by
      intro r
      rw [List.take_succ_cons, List.take_left]
    have hsize' : Numeral.size (c :: (word ++ r)) = (c :: word).length := hcut r hr
    simp only [readNumeral, hsize', hsize, List.length_cons, htake]

theorem readWord_cut {c : Char} {cs : List Char} (hc : isNameContinue c = true) :
    Cuts (fun cs => (readWord (c :: cs)).map .ok) cs (readWord (c :: cs)).size
      (readWord (c :: cs)).result := by
  obtain ⟨word, rest, rfl, hword, hall, hrest⟩ := exists_takeWhile isNameContinue cs
  have hrun : ∀ {r : List Char}, (word ++ r).takeWhile isNameContinue = word →
      (c :: (word ++ r)).takeWhile isNameContinue = c :: word := by
    intro r hr
    rw [List.takeWhile_cons_of_pos hc, hr]
  refine ⟨word, rest, rfl, ?_, fun r hr => ?_⟩
  · rw [readWord, hrun hword, List.length_cons]
  · simp only [readWord, Scan.map]
    rw [hrun hword, hrun (takeWhile_append hall (hr.any (by decide) hrest))]

theorem readPunctuation_cut {c : Char} {cs : List Char} {n : Nat} {l : Lexeme}
    (h : readPunctuation c cs = ⟨n, .ok l⟩) : Cuts (readPunctuation c) cs n l := by
  rw [readPunctuation] at h
  split at h
  · next s hs =>
    obtain ⟨hmem, rest, hrest⟩ := Symbol.punctuation?_eq_some hs
    cases h
    cases hspelling : s.spelling.toList with
    | nil =>
      have hall : ∀ s ∈ Symbol.punctuation, s.spelling.toList ≠ [] := by decide
      exact absurd hspelling (hall s hmem)
    | cons d word =>
      rw [hspelling, List.cons_append] at hrest
      obtain ⟨rfl, rfl⟩ := List.cons.inj hrest
      refine ⟨word, rest, rfl, ?_, fun r hr => ?_⟩
      · rw [← String.length_toList, hspelling, List.length_cons]
      · rw [← List.cons_append, ← hspelling] at hs
        rw [readPunctuation, ← List.cons_append, ← hspelling, Symbol.punctuation?_resume hmem hs hr]
  · cases h

/-! The first character decides. -/

theorem not_isDigit_of_isNameStart {c : Char} (h : isNameStart c = true) : c.isDigit = false := by
  cases hdigit : c.isDigit with
  | false => rfl
  | true =>
    have hrange : 48 ≤ c.toNat ∧ c.toNat ≤ 57 := Char.isDigit_iff_toNat.1 hdigit
    have halpha : c.isAlpha = false := by
      refine Bool.or_eq_false_iff.2 ⟨decide_eq_false fun hupper => ?_,
        Bool.eq_false_iff.2 fun hlower => ?_⟩
      · have hle : 65 ≤ c.toNat := hupper.1
        omega
      · have hle : 97 ≤ c.toNat := of_decide_eq_true (Bool.and_eq_true_iff.1 hlower).1
        omega
    have hsmall : c.toNat < 128 := by omega
    have hunderscore : c ≠ '_' := by
      rintro rfl
      revert hrange
      decide
    simp [isNameStart, isAlphabetic, hunderscore, hsmall, halpha] at h

theorem read_bracket (cs : List Char) : read ('[' :: cs) = readBracket ('[' :: cs) := by
  rw [read, if_pos rfl]

theorem read_quoted {quote : Char} (h : quote = '"' ∨ quote = '\'') (cs : List Char) :
    read (quote :: cs) = readQuoted quote cs := by
  rw [read, if_neg, if_pos h]
  rintro rfl
  revert h
  decide

theorem read_numeral {c : Char} {cs : List Char} (h : beginsNumeral c cs = true) :
    read (c :: cs) = (readNumeral (c :: cs)).map .ok := by
  have hc : c.isDigit = true ∨ c = '.' := by
    rcases Bool.or_eq_true_iff.1 h with hdigit | hdot
    · exact .inl hdigit
    · exact .inr (eq_of_beq (Bool.and_eq_true_iff.1 hdot).1)
  rw [read, if_neg, if_neg, if_pos h]
  · rintro (rfl | rfl) <;> revert hc <;> decide
  · rintro rfl
    revert hc
    decide

theorem read_word {c : Char} (h : isNameStart c = true) (cs : List Char) :
    read (c :: cs) = (readWord (c :: cs)).map .ok := by
  rw [read, if_neg, if_neg, if_neg, if_pos h]
  · rw [beginsNumeral, not_isDigit_of_isNameStart h]
    intro hdot
    obtain rfl : c = '.' := eq_of_beq (Bool.and_eq_true_iff.1 hdot).1
    revert h
    decide
  · rintro (rfl | rfl) <;> revert h <;> decide
  · rintro rfl
    revert h
    decide

theorem read_punctuation {c : Char} {cs : List Char} (hbracket : c ≠ '[')
    (hquote : ¬(c = '"' ∨ c = '\'')) (hnumeral : beginsNumeral c cs = false)
    (hname : isNameStart c = false) : read (c :: cs) = readPunctuation c cs := by
  rw [read, if_neg hbracket, if_neg hquote, hnumeral, hname, if_neg Bool.false_ne_true,
    if_neg Bool.false_ne_true]

theorem read_cut {c : Char} {cs : List Char} {n : Nat} {l : Lexeme}
    (h : read (c :: cs) = ⟨n, .ok l⟩) : Cuts (fun cs => read (c :: cs)) cs n l := by
  by_cases hbracket : c = '['
  · subst hbracket
    simp only [read_bracket] at h ⊢
    exact readBracket_cut h
  by_cases hquote : c = '"' ∨ c = '\''
  · simp only [read_quoted hquote] at h ⊢
    exact readQuoted_cut h
  cases hnumeral : beginsNumeral c cs with
  | true =>
    rw [read_numeral hnumeral] at h
    injection h with hsize hresult
    injection hresult with hresult
    obtain ⟨word, rest, rfl, hn, hbegins, hcut⟩ := readNumeral_cut hnumeral
    refine ⟨word, rest, rfl, hsize ▸ hn, fun r hr => ?_⟩
    dsimp only
    rw [read_numeral (hbegins r), hcut r hr, Scan.map, hsize, hresult]
  | false =>
    cases hname : isNameStart c with
    | true =>
      simp only [read_word hname] at h ⊢
      injection h with hsize hresult
      injection hresult with hresult
      have hcut := @readWord_cut _ cs (isNameContinue_of_isNameStart hname)
      rwa [hsize, hresult] at hcut
    | false =>
      rw [read_punctuation hbracket hquote hnumeral hname] at h
      obtain ⟨word, rest, rfl, hn, hcut⟩ := readPunctuation_cut h
      refine ⟨word, rest, rfl, hn, fun r hr => ?_⟩
      -- What does not begin a numeral does not begin one where the text is cut.
      have hnumeral' : beginsNumeral c (word ++ r) = false := by
        cases word with
        | nil =>
          obtain ⟨hdigit, hdot⟩ := Bool.or_eq_false_iff.1 hnumeral
          rw [List.nil_append, beginsNumeral, hdigit, Bool.false_or, Bool.and_eq_false_iff]
          rcases Bool.and_eq_false_iff.1 hdot with hc | hrest
          · exact .inl hc
          · exact .inr (hr.any (by decide) hrest)
        | cons d word => exact hnumeral
      dsimp only
      rw [read_punctuation hbracket hquote hnumeral' hname, hcut r hr]

end Lexeme

end LuaSource
