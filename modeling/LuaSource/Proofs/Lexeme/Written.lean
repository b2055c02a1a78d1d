-- SUMMARY: Symbols, names and strings are read where they are written.
import LuaSource.Proofs.Grammar.Meets
import LuaSource.Proofs.Lexeme.CutLexeme

/-!
# Written lexemes

A lexeme that is written down is read again, unless the text behind it goes on with it. What goes
on with a symbol can be told by one character.
-/

namespace LuaSource

/-! ## Strings -/

namespace Quoted

theorem readBody_skip (quote : Char) (raw value word cs : List Char) :
    readBody quote word.length raw value (word ++ cs) =
      readBody quote 0 (word.reverse ++ raw) value cs := by
  induction word generalizing raw with
  | nil => rfl
  | cons c word ih =>
    rw [List.length_cons, List.cons_append, readBody, ih, List.reverse_cons, List.append_assoc]
    rfl

theorem readBody_escape {quote : Char} (hquote : '\\' ≠ quote) (word : List Char) {d : Char}
    {raw value cs : List Char} (h : readEscape (word ++ cs) = ⟨word.length, .ok d⟩) :
    readBody quote 0 raw value ('\\' :: (word ++ cs)) =
      readBody quote 0 (word.reverse ++ '\\' :: raw) (d :: value) cs := by
  rw [readBody, if_neg hquote, if_neg (by decide), if_pos rfl, h]
  exact readBody_skip quote ('\\' :: raw) (d :: value) word cs

theorem readEscape_letter {letter d : Char} (h : (letter, d) ∈ letters) (cs : List Char) :
    readEscape (letter :: cs) = ⟨1, .ok d⟩ := by
  have hlookup : ∀ p ∈ letters, letters.lookup p.1 = some p.2 := by decide
  rw [readEscape, hlookup _ h]

theorem digitChar_mod_ten (n : Nat) :
    (Nat.digitChar (n % 10)).isDigit = true ∧ digitValue (Nat.digitChar (n % 10)) = n % 10 := by
  have hdigit : ∀ d < 10, (Nat.digitChar d).isDigit = true ∧ digitValue (Nat.digitChar d) = d := by
    decide
  exact hdigit _ (Nat.mod_lt n (by decide))

theorem readDecimal_threeDigits {n : Nat} (h : n < 256) (cs : List Char) :
    readDecimal (threeDigits n ++ cs) = ⟨3, .ok (Char.ofNat n)⟩ := by
  obtain ⟨hdigit₁, hvalue₁⟩ := digitChar_mod_ten (n / 100)
  obtain ⟨hdigit₂, hvalue₂⟩ := digitChar_mod_ten (n / 10)
  obtain ⟨hdigit₃, hvalue₃⟩ := digitChar_mod_ten n
  have hdigits : (threeDigits n).takeWhile Char.isDigit = threeDigits n := by
    rw [threeDigits, List.takeWhile_cons_of_pos hdigit₁, List.takeWhile_cons_of_pos hdigit₂,
      List.takeWhile_cons_of_pos hdigit₃, List.takeWhile_nil]
  have hvalue : digitsValue 10 (threeDigits n) = n := by
    rw [threeDigits, digitsValue, List.foldl_cons, List.foldl_cons, List.foldl_cons,
      List.foldl_nil, hvalue₁, hvalue₂, hvalue₃]
    omega
  have htake : (threeDigits n ++ cs).take 3 = threeDigits n := rfl
  rw [readDecimal, htake, hdigits, hvalue, if_pos (Nat.le_of_lt_succ h)]
  rfl

theorem readEscape_threeDigits {n : Nat} (h : n < 256) (cs : List Char) :
    readEscape (threeDigits n ++ cs) = ⟨3, .ok (Char.ofNat n)⟩ := by
  have hfirst : ∀ d < 10, letters.lookup (Nat.digitChar d) = none ∧
      isNewline (Nat.digitChar d) = false ∧ Nat.digitChar d ≠ 'x' ∧
      (Nat.digitChar d).isDigit = true := by decide
  obtain ⟨hletter, hnewline, hx, hdigit⟩ := hfirst (n / 100 % 10) (Nat.mod_lt _ (by decide))
  have hread := readDecimal_threeDigits h cs
  rw [threeDigits, List.cons_append] at hread ⊢
  rw [readEscape, hletter]
  dsimp only
  rw [hnewline, if_neg Bool.false_ne_true, if_neg hx, if_pos hdigit, hread]

theorem readBody_encodeChar (raw value : List Char) (c : Char) (cs : List Char) :
    readBody '"' 0 raw value (encodeChar c ++ cs) =
      readBody '"' 0 ((encodeChar c).reverse ++ raw) (c :: value) cs := by
  rw [encodeChar]
  split
  · next hc =>
    refine readBody_escape (by decide) [c] ?_
    rcases hc with rfl | rfl <;> rfl
  · next hc =>
    split
    · next letter d hfind =>
      have hmem := List.mem_of_find?_eq_some hfind
      obtain rfl : d = c := by simpa using List.find?_some hfind
      exact readBody_escape (by decide) [letter] (readEscape_letter hmem cs)
    · next hfind =>
      have hletter : ∀ d, (c, d) ∉ letters.map fun p => (p.2, p.1) := by
        intro d hd
        obtain ⟨p, hp, heq⟩ := List.mem_map.1 hd
        have hne := List.find?_eq_none.1 hfind p hp
        cases heq
        exact hne (beq_self_eq_true _)
      split
      · next hcontrol =>
        have hlt : c.toNat < 256 := by omega
        have h := readEscape_threeDigits hlt cs
        rw [Char.ofNat_toNat] at h
        exact readBody_escape (by decide) (threeDigits c.toNat) h
      · have hnewline : isNewline c = false := by
          refine eq_false_of_ne_true fun h => ?_
          rcases Bool.or_eq_true_iff.1 h with h | h
          · exact hletter 'n' (by rw [eq_of_beq h]; decide)
          · exact hletter 'r' (by rw [eq_of_beq h]; decide)
        rw [List.singleton_append, readBody, if_neg fun h => hc (.inl h), hnewline,
          if_neg Bool.false_ne_true, if_neg fun h => hc (.inr h)]
        rfl

/-- A text between double quotes is read as what it is written for. -/
theorem readBody_encode (raw value v r : List Char) :
    readBody '"' 0 raw value (v.flatMap encodeChar ++ '"' :: r) =
      ⟨raw.length + (v.flatMap encodeChar).length + 1, .ok (value.reverse ++ v)⟩ := by
  induction v generalizing raw value with
  | nil =>
    rw [List.flatMap_nil, List.nil_append, readBody, if_pos rfl, List.append_nil]
    rfl
  | cons c v ih =>
    rw [List.flatMap_cons, List.append_assoc, readBody_encodeChar, ih, List.reverse_cons,
      List.append_assoc, List.length_append, List.length_append, List.length_reverse]
    congr 1
    omega

end Quoted

/-! ## Symbols -/

namespace Symbol

/-- Whether a character right behind a symbol would be read with it. -/
def goesOn (s : Symbol) (c : Char) : Bool :=
  match s with
  | minus => c == '-'
  | leftBracket => c == '[' || c == '='
  | dot => c == '.' || c.isDigit
  | concat => c == '.'
  | less | greater | assign => c == '='
  | colon => c == ':'
  | s => s.isKeyword && isNameContinue c

theorem goesOn_of_isBlank (s : Symbol) {c : Char} (h : isBlank c = true) : s.goesOn c = false := by
  simp only [isBlank, Bool.or_eq_true, beq_iff_eq] at h
  rcases h with ((((rfl | rfl) | rfl) | rfl) | rfl) | rfl <;> cases s <;> decide

theorem goesOn_space (s : Symbol) : s.goesOn ' ' = false := s.goesOn_of_isBlank rfl

theorem punctuation?_append {s : Symbol} (hs : s ∈ punctuation) {r : List Char}
    (hr : ∀ c ∈ r.head?, s.goesOn c = false) :
    punctuation? (s.spelling.toList ++ r) = some s := by
  cases r with
  | nil => rw [List.append_nil, punctuation?_spelling hs]
  | cons c cs =>
    have hc := hr c rfl
    simp only [punctuation, List.mem_cons, List.not_mem_nil, or_false] at hs
    rcases hs with rfl | rfl | rfl | rfl | rfl | rfl | rfl | rfl | rfl | rfl | rfl | rfl | rfl |
      rfl | rfl | rfl | rfl | rfl | rfl | rfl | rfl | rfl | rfl | rfl | rfl | rfl | rfl
    all_goals
      first
      | rfl
      | simp_all [punctuation?, punctuation, spelling, List.isPrefixOf, goesOn, @eq_comm _ '.' c,
          @eq_comm _ '=' c, @eq_comm _ ':' c]

end Symbol

namespace Lexeme

theorem read_word_append {c : Char} {word r : List Char} (hc : isNameStart c = true)
    (hword : ∀ d ∈ word, isNameContinue d = true)
    (hr : ∀ d ∈ r.head?, isNameContinue d = false) :
    read (c :: word ++ r) =
      ⟨(c :: word).length, .ok (ofWord (String.ofList (c :: word)))⟩ := by
  have hall : ∀ d ∈ c :: word, isNameContinue d = true :=
    List.forall_mem_cons.2 ⟨isNameContinue_of_isNameStart hc, hword⟩
  have hend : r.head?.any isNameContinue = false := by
    cases r with
    | nil => rfl
    | cons d r => exact hr d rfl
  rw [List.cons_append, read_word hc, ← List.cons_append, readWord, takeWhile_append hall hend]
  rfl

theorem read_leftBracket {r : List Char} (hr : ∀ c ∈ r.head?, Symbol.leftBracket.goesOn c = false) :
    read ('[' :: r) = ⟨1, .ok { symbol := .leftBracket }⟩ := by
  have hhead : ∀ c ∈ r.head?, c ≠ '[' ∧ c ≠ '=' := by
    intro c hc
    obtain ⟨hopen, hequals⟩ := Bool.or_eq_false_iff.1 (hr c hc)
    exact ⟨ne_of_beq_false hopen, ne_of_beq_false hequals⟩
  have hrun : LongBracket.equalsRun r = 0 := by
    have hend : r.head?.any (· == '=') = false := by
      cases r with
      | nil => rfl
      | cons c r => exact beq_false_of_ne (hhead c rfl).2
    rw [LongBracket.equalsRun, takeWhile_eq_nil hend, List.length_nil]
  have hclosed : LongBracket.opened? ('[' :: r) = none := by
    rw [LongBracket.opened?, hrun, List.drop_zero, if_neg]
    rintro ⟨-, hopen⟩
    exact (hhead _ hopen).1 rfl
  rw [read_bracket, readBracket, hclosed]
  dsimp only
  rw [List.tail_cons, hrun]

theorem read_punctuation_append {s : Symbol} (hs : s ∈ Symbol.punctuation)
    (hbracket : s ≠ .leftBracket) {r : List Char} (hr : ∀ c ∈ r.head?, s.goesOn c = false) :
    read (s.spelling.toList ++ r) = ⟨s.spelling.toList.length, .ok { symbol := s }⟩ := by
  have hmarks : ∀ s ∈ Symbol.punctuation, s ≠ .leftBracket →
      (s.spelling.toList.head?.all fun c =>
        c != '[' && c != '"' && c != '\'' && !c.isDigit && !isNameStart c) = true ∧
      (s.spelling.toList.head? = some '.' → s = .dot ∨ s.spelling.toList[1]? = some '.') ∧
      s.spelling.toList ≠ [] := by decide
  obtain ⟨hall, hdot, hne⟩ := hmarks s hs hbracket
  have hread := Symbol.punctuation?_append hs hr
  cases hcs : s.spelling.toList with
  | nil => exact absurd hcs hne
  | cons c word =>
    rw [hcs] at hall hdot hread
    simp only [List.head?_cons, Option.all_some, Bool.and_eq_true, bne_iff_ne, ne_eq,
      Bool.not_eq_true'] at hall
    obtain ⟨⟨⟨⟨hopen, hdouble⟩, hsingle⟩, hdigit⟩, hname⟩ := hall
    -- Only a point could begin a numeral, and behind it stands another one or no digit.
    have hnumeral : beginsNumeral c (word ++ r) = false := by
      rw [beginsNumeral, hdigit, Bool.false_or, Bool.and_eq_false_iff]
      by_cases hc : c = '.'
      · right
        subst hc
        rcases hdot rfl with rfl | hsecond
        · cases hcs
          cases r with
          | nil => rfl
          | cons d r => exact (Bool.or_eq_false_iff.1 (hr d rfl)).2
        · cases word with
          | nil => cases hsecond
          | cons d word =>
            cases hsecond
            rfl
      · exact .inl (beq_false_of_ne hc)
    rw [List.cons_append] at hread ⊢
    rw [read_punctuation hopen (fun h => h.elim hdouble hsingle) hnumeral hname, readPunctuation,
      hread]
    dsimp only
    rw [← String.length_toList, hcs]

/-- A symbol is read as it is written. -/
theorem read_symbol {s : Symbol} (hs : s.isWritten = true) {r : List Char}
    (hr : ∀ c ∈ r.head?, s.goesOn c = false) :
    read (s.spelling.toList ++ r) = ⟨s.spelling.toList.length, .ok { symbol := s }⟩ := by
  have hmem : s ∈ Symbol.keywords ++ Symbol.punctuation := of_decide_eq_true hs
  rcases List.mem_append.1 hmem with hmem | hmem
  · have hspelling : ∀ s ∈ Symbol.keywords, (s.spelling.toList.head?.any isNameStart &&
        s.spelling.toList.all isNameContinue) = true := by decide
    have hgoesOn : ∀ s ∈ Symbol.keywords, s.goesOn = isNameContinue := by
      intro s hs
      simp only [Symbol.keywords, List.mem_cons, List.not_mem_nil, or_false] at hs
      rcases hs with rfl | rfl | rfl | rfl | rfl | rfl | rfl | rfl | rfl | rfl | rfl | rfl | rfl |
        rfl | rfl | rfl | rfl | rfl | rfl | rfl | rfl | rfl <;> rfl
    have hkeyword : ∀ c ∈ r.head?, isNameContinue c = false := fun c hc =>
      (congrFun (hgoesOn s hmem) c).symm.trans (hr c hc)
    obtain ⟨hstart, hall⟩ := Bool.and_eq_true_iff.1 (hspelling s hmem)
    have hword : ofWord s.spelling = { symbol := s } := by
      rw [ofWord, Symbol.keyword?_spelling hmem]
    cases hcs : s.spelling.toList with
    | nil =>
      rw [hcs] at hstart
      cases hstart
    | cons c word =>
      rw [hcs] at hstart hall
      rw [read_word_append hstart
          (fun d hd => List.all_eq_true.1 hall d (List.mem_cons_of_mem c hd)) hkeyword,
        ← hcs, String.ofList_toList, hword]
  · by_cases hbracket : s = .leftBracket
    · subst hbracket
      exact read_leftBracket hr
    · exact read_punctuation_append hmem hbracket hr

/-- A name is read as it is written. -/
theorem read_name {text : String} (h : IsName text) {r : List Char}
    (hr : ∀ c ∈ r.head?, isNameContinue c = false) :
    read (text.toList ++ r) =
      ⟨text.toList.length, .ok { symbol := .name, value := some text }⟩ := by
  obtain ⟨⟨c, word, htext, hc, hword⟩, hkeyword⟩ := h
  rw [htext, read_word_append hc hword hr, ← htext, String.ofList_toList, ofWord, hkeyword]

theorem read_encode (value : String) (r : List Char) :
    read (Quoted.encode value.toList ++ r) =
      ⟨(Quoted.encode value.toList).length, .ok { symbol := .string, value := value }⟩ := by
  rw [Quoted.encode, List.cons_append, List.append_assoc, read_quoted (.inl rfl), readQuoted,
    Quoted.read, List.singleton_append, Quoted.readBody_encode]
  simp [Scan.map, Except.map]
  omega

end Lexeme

end LuaSource
