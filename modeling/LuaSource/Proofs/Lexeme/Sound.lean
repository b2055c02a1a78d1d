-- SUMMARY: What holds of every lexeme that is read: names are names, and no numeral has a sign.
import LuaSource.Proofs.Grammar.Letter
import LuaSource.Proofs.Lexeme.CutLexeme

/-!
# Sound lexemes

A numeral begins with a digit or a point, and what is made of numbers without a sign by adding
and multiplying has none either.
-/

namespace LuaSource

/-! ## Numbers without a sign -/

namespace Double

def Unsigned (x : Double) : Prop := x.negative = false

theorem Unsigned.add {x y : Double} (hx : x.Unsigned) (hy : y.Unsigned) : (x + y).Unsigned := by
  have hx : x.negative = false := hx
  have hy : y.negative = false := hy
  have hsum : ¬ x.signedUnits + y.signedUnits < 0 := by
    simp only [signedUnits, hx, hy, Bool.false_eq_true, if_false]
    omega
  show (Double.add x y).Unsigned
  unfold Double.add
  split
  · rfl
  · split
    · split
      · rfl
      · exact hx
    · split
      · exact hy
      · show (if _ then _ else _) = false
        split
        · rw [hx, Bool.false_and]
        · exact decide_eq_false hsum

theorem Unsigned.mul {x y : Double} (hx : x.Unsigned) (hy : y.Unsigned) : (x * y).Unsigned := by
  have hsign : (x.negative != y.negative) = false := by
    rw [show x.negative = false from hx, show y.negative = false from hy]
    rfl
  show (Double.mul x y).Unsigned
  unfold Double.mul
  split
  · rfl
  · split
    · split
      · rfl
      · exact hsign
    · exact hsign

theorem unsigned_twoPow (n : Int) : (twoPow n).Unsigned := by
  unfold twoPow
  split
  · rfl
  · split
    · rfl
    · split <;> rfl

theorem unsigned_ofDecimal (d : Decimal) : (ofDecimal d).Unsigned := by
  unfold ofDecimal
  split
  · split
    · rfl
    · split <;> rfl
  · split <;> rfl

end Double

/-! ## Values of numerals -/

namespace Numeral

theorem unsigned_integerValue (digits : List Char) : (integerValue digits).Unsigned := by
  have hfold : ∀ (digits : List Char) (x : Double), x.Unsigned →
      (digits.foldl (fun x c => x * sixteen + Double.ofNat (digitValue c)) x).Unsigned := by
    intro digits
    induction digits with
    | nil => exact fun _ hx => hx
    | cons c cs ih => exact fun x hx => ih _ ((hx.mul (y := sixteen) rfl).add rfl)
  exact hfold digits _ rfl

theorem unsigned_addFraction {x scale : Double} (hx : x.Unsigned) (hs : scale.Unsigned)
    (digits : List Char) : (addFraction x scale digits).Unsigned := by
  induction digits generalizing x scale with
  | nil => exact hx
  | cons c cs ih => exact ih (hx.add (Double.Unsigned.mul rfl hs)) (hs.mul rfl)

theorem unsigned_hexValue? {cs : List Char} {x : Double} (h : hexValue? cs = some x) :
    x.Unsigned := by
  rw [hexValue?] at h
  obtain ⟨⟨integer, fraction⟩, -, h⟩ := Option.bind_eq_some_iff.1 h
  have hmantissa := @unsigned_addFraction _ sixteenth (unsigned_integerValue integer) rfl fraction
  dsimp only at h
  split at h
  · obtain ⟨n, -, h⟩ := Option.bind_eq_some_iff.1 h
    cases h
    exact hmantissa.mul (Double.unsigned_twoPow _)
  · cases h
    exact hmantissa

theorem unsigned_decimalValue? {c : Char} {cs : List Char} {x : Double} (hminus : c ≠ '-')
    (hplus : c ≠ '+') (h : decimalValue? (c :: cs) = some x) : x.Unsigned := by
  have hsign : splitSign (c :: cs) = (false, c :: cs) := by
    rw [splitSign, if_neg hminus, if_neg hplus]
  rw [decimalValue?, hsign] at h
  dsimp only at h
  rw [if_neg Bool.false_ne_true, Option.or_eq_some_iff] at h
  rcases h with h | ⟨-, h⟩
  · rw [word?] at h
    split at h <;> cases h <;> rfl
  · obtain ⟨d, -, rfl⟩ := Option.map_eq_some_iff.1 h
    exact Double.unsigned_ofDecimal d

theorem unsigned_value? {c : Char} {cs : List Char} {x : Double}
    (hc : c.isDigit = true ∨ c = '.') (h : value? (String.ofList (c :: cs)) = some x) :
    x.Unsigned := by
  rw [value?, String.toList_ofList] at h
  split at h
  · exact unsigned_hexValue? h
  · exact unsigned_hexValue? h
  · refine unsigned_decimalValue? ?_ ?_ h
    · rintro rfl
      revert hc
      decide
    · rintro rfl
      revert hc
      decide

end Numeral

/-! ## Lexemes -/

namespace Lexeme

theorem sound_of_ne {l : Lexeme} (s : Symbol) (hs : l.symbol = s)
    (hne : s ≠ .name ∧ s ≠ .number ∧ s ≠ .eof) : l.Sound ∧ l.symbol ≠ .eof := by
  subst hs
  exact ⟨⟨fun h => absurd h hne.1, fun h => absurd h hne.2.1⟩, hne.2.2⟩

theorem sound_readNumeral {c : Char} {cs : List Char} (h : beginsNumeral c cs = true) :
    (readNumeral (c :: cs)).result.Sound := by
  obtain ⟨word, rest, rfl, hsize, -, -⟩ := readNumeral_cut h
  refine ⟨nofun, fun _ x hx => ?_⟩
  have hsize : Numeral.size (c :: (word ++ rest)) = word.length + 1 := hsize
  rw [readNumeral, hsize] at hx
  refine Numeral.unsigned_value? ?_ hx
  rcases Bool.or_eq_true_iff.1 h with hdigit | hdot
  · exact .inl hdigit
  · exact .inr (eq_of_beq (Bool.and_eq_true_iff.1 hdot).1)

theorem sound_readWord {c : Char} {cs : List Char} (h : isNameStart c = true) :
    (readWord (c :: cs)).result.Sound ∧ (readWord (c :: cs)).result.symbol ≠ .eof := by
  obtain ⟨word, rest, rfl, hword, hall, -⟩ := exists_takeWhile isNameContinue cs
  rw [readWord, List.takeWhile_cons_of_pos (isNameContinue_of_isNameStart h), hword, ofWord]
  dsimp only
  split
  · next keyword hkeyword =>
    have hmem := Symbol.isKeyword_of_keyword? hkeyword
    have hne : keyword ≠ .name ∧ keyword ≠ .number ∧ keyword ≠ .eof := by
      refine ⟨?_, ?_, ?_⟩ <;>
      · rintro rfl
        revert hmem
        decide
    exact sound_of_ne _ rfl hne
  · next hkeyword =>
    refine ⟨⟨fun _ => ⟨⟨c, word, ?_, h, hall⟩, hkeyword⟩, by rintro ⟨⟩⟩, by rintro ⟨⟩⟩
    rw [Option.getD_some, String.toList_ofList]

/-- The lexeme at the head of a text that is not empty. -/
theorem sound_read {c : Char} {cs : List Char} {n : Nat} {l : Lexeme}
    (h : read (c :: cs) = ⟨n, .ok l⟩) : l.Sound ∧ l.symbol ≠ .eof := by
  by_cases hbracket : c = '['
  · subst hbracket
    rw [read_bracket, readBracket] at h
    split at h <;> split at h <;> cases h
    · exact sound_of_ne .string rfl (by decide)
    · exact sound_of_ne .leftBracket rfl (by decide)
  by_cases hquote : c = '"' ∨ c = '\''
  · rw [read_quoted hquote, readQuoted, Scan.map] at h
    injection h with _ hresult
    cases hread : (Quoted.read c cs).result with
    | error e =>
      rw [hread] at hresult
      cases hresult
    | ok v =>
      rw [hread] at hresult
      cases hresult
      exact sound_of_ne .string rfl (by decide)
  cases hnumeral : beginsNumeral c cs with
  | true =>
    rw [read_numeral hnumeral] at h
    injection h with _ hresult
    injection hresult with hresult
    rw [← hresult]
    exact ⟨sound_readNumeral hnumeral, by rintro ⟨⟩⟩
  | false =>
    cases hname : isNameStart c with
    | true =>
      rw [read_word hname] at h
      injection h with _ hresult
      injection hresult with hresult
      rw [← hresult]
      exact sound_readWord hname
    | false =>
      rw [read_punctuation hbracket hquote hnumeral hname, readPunctuation] at h
      split at h
      · next s hs =>
        cases h
        obtain ⟨hmem, -⟩ := Symbol.punctuation?_eq_some hs
        have hne : s ≠ .name ∧ s ≠ .number ∧ s ≠ .eof := by
          refine ⟨?_, ?_, ?_⟩ <;>
          · rintro rfl
            revert hmem
            decide
        exact sound_of_ne _ rfl hne
      · cases h

/-! A lexeme has a text of its own if and only if its symbol carries one. -/

theorem carriesText_of_written {s : Symbol} (h : s ∈ Symbol.keywords ++ Symbol.punctuation) :
    s.carriesText = false := by
  have hall : (Symbol.keywords ++ Symbol.punctuation).all (! ·.carriesText) = true := by decide
  simpa using List.all_eq_true.1 hall s h

theorem carriesText_read {cs : List Char} {n : Nat} {l : Lexeme} (h : read cs = ⟨n, .ok l⟩) :
    l.value.isSome = l.symbol.carriesText := by
  cases cs with
  | nil =>
    cases h
    rfl
  | cons c cs =>
    rw [read] at h
    split at h
    · rw [readBracket] at h
      split at h <;> split at h <;> cases h <;> rfl
    split at h
    · rw [readQuoted, Scan.map] at h
      injection h with _ hresult
      cases hread : (Quoted.read c cs).result with
      | error e =>
        rw [hread] at hresult
        cases hresult
      | ok v =>
        rw [hread] at hresult
        cases hresult
        rfl
    split at h
    · cases h
      rfl
    split at h
    · injection h with _ hresult
      injection hresult with hresult
      rw [← hresult, readWord, ofWord]
      split
      · next keyword hkeyword =>
        have hmem : keyword ∈ Symbol.keywords := by
          simpa [Symbol.isKeyword] using Symbol.isKeyword_of_keyword? hkeyword
        exact (carriesText_of_written (List.mem_append_left _ hmem)).symm
      · rfl
    · rw [readPunctuation] at h
      split at h
      · next s hs =>
        cases h
        have hmem := List.mem_of_find?_eq_some hs
        exact (carriesText_of_written (List.mem_append_right _ hmem)).symm
      · cases h

end Lexeme

end LuaSource
