-- SUMMARY: Decimals as texts: how they are written, and what they are read as.
import LuaSource.Numeral
import LuaSource.Proofs.Lexeme.Cut
import Mathlib.Algebra.Group.Nat.Defs

/-!
# Decimals in a text

A decimal is written as digits, with a point and more digits behind them or not, and with an
exponent or not. A text of this form has one value, whichever way of writing it comes from.
-/

namespace LuaSource

/-! ## Digits -/

theorem digitsValue_eq_ofDigitChars {ds : List Char} (h : ∀ c ∈ ds, c.isDigit = true) :
    digitsValue 10 ds = Nat.ofDigitChars 10 ds 0 := by
  rw [digitsValue, Nat.ofDigitChars_eq_foldl]
  generalize 0 = n
  induction ds generalizing n with
  | nil => rfl
  | cons c ds ih =>
    have hc : digitValue c = c.toNat - '0'.toNat := by
      rw [digitValue, if_pos (h c List.mem_cons_self)]
    rw [List.foldl_cons, List.foldl_cons, hc, Nat.mul_comm]
    exact ih (fun d hd => h d (List.mem_cons_of_mem c hd)) _

theorem isDigit_of_mem_toDigits {n : Nat} {c : Char} (h : c ∈ Nat.toDigits 10 n) :
    c.isDigit = true := Nat.isDigit_of_mem_toDigits (by decide) (by decide) h

theorem digitsValue_toDigits (n : Nat) : digitsValue 10 (Nat.toDigits 10 n) = n := by
  rw [digitsValue_eq_ofDigitChars fun c => isDigit_of_mem_toDigits, Nat.ofDigitChars_ten_toDigits]

theorem isDigit_of_mem_zeros {n : Nat} {c : Char} (h : c ∈ List.replicate n '0') :
    c.isDigit = true := by
  rw [List.eq_of_mem_replicate h]
  decide

theorem digitsValue_zeros_append (n : Nat) (ds : List Char) :
    digitsValue 10 (List.replicate n '0' ++ ds) = digitsValue 10 ds := by
  induction n with
  | zero => rfl
  | succ n ih =>
    rw [List.replicate_succ, List.cons_append]
    exact ih

theorem digitsValue_append_zeros (ds : List Char) (n : Nat) :
    digitsValue 10 (ds ++ List.replicate n '0') = digitsValue 10 ds * 10 ^ n := by
  induction n with
  | zero => rw [List.replicate_zero, List.append_nil, Nat.pow_zero, Nat.mul_one]
  | succ n ih =>
    rw [List.replicate_succ', ← List.append_assoc, digitsValue_concat, ih, Nat.pow_succ,
      Nat.mul_assoc]
    rfl

/-- What is not a digit tells digits apart from what is behind them. -/
theorem ne_of_isDigit {c d : Char} (hc : c.isDigit = true) (hd : d.isDigit = false) : c ≠ d := by
  rintro rfl
  rw [hc] at hd
  cases hd

namespace Numeral

/-! ## Splitting -/

theorem splitAtFirst_none {p : Char → Bool} {cs : List Char} (h : ∀ c ∈ cs, p c = false) :
    splitAtFirst p cs = (cs, none) := by
  have hnot : ∀ c ∈ cs, (!p c) = true := fun c hc => by rw [h c hc]; rfl
  have hall : (cs ++ []).takeWhile (!p ·) = cs := takeWhile_append hnot rfl
  rw [List.append_nil] at hall
  rw [splitAtFirst, hall, List.drop_length]

theorem splitAtFirst_some {p : Char → Bool} {before behind : List Char} {c : Char}
    (h : ∀ d ∈ before, p d = false) (hc : p c = true) :
    splitAtFirst p (before ++ c :: behind) = (before, some behind) := by
  have hall : (before ++ c :: behind).takeWhile (!p ·) = before := by
    refine takeWhile_append (fun d hd => by rw [h d hd]; rfl) ?_
    rw [List.head?_cons, Option.any_some, hc]
    rfl
  rw [splitAtFirst, hall, List.drop_left]

/-! ## Texts of decimals -/

/-- Digits behind a point, which is left out if there are none. -/
def point (fraction : List Char) : List Char := if fraction.isEmpty then [] else '.' :: fraction

/-- Whether a text is an exponent with its mark, or nothing where no exponent is meant. -/
inductive IsExponent : List Char → Int → Prop
  | none : IsExponent [] 0
  | some (e : Int) : IsExponent ('e' :: (toString e).toList) e

/-- A text that writes a decimal. -/
inductive Denotes : List Char → Decimal → Prop
  | intro {integer fraction exponent : List Char} {e : Int} (hne : integer ≠ [])
      (hinteger : ∀ c ∈ integer, c.isDigit = true) (hfraction : ∀ c ∈ fraction, c.isDigit = true)
      (he : IsExponent exponent e) :
      Denotes (integer ++ (point fraction ++ exponent))
        ⟨digitsValue 10 (integer ++ fraction), e - fraction.length⟩

theorem toList_toString (e : Int) :
    ∃ n, (toString e).toList = (if e < 0 then ['-'] else []) ++ Nat.toDigits 10 n ∧
      e = if e < 0 then -(n : Int) else n := by
  cases e with
  | ofNat n =>
    have hneg : ¬ Int.ofNat n < 0 := Int.not_lt.2 (Int.natCast_nonneg n)
    rw [if_neg hneg]
    exact ⟨n, Nat.toList_repr, (if_neg hneg).symm⟩
  | negSucc n =>
    have hneg : Int.negSucc n < 0 := Int.negSucc_lt_zero n
    refine ⟨n + 1, ?_, (if_pos hneg).symm⟩
    rw [if_pos hneg]
    show ("-" ++ (n + 1).repr).toList = _
    rw [String.toList_append, Nat.toList_repr]
    rfl

theorem exponent?_toString (e : Int) : exponent? (toString e).toList = some e := by
  obtain ⟨n, htext, he⟩ := toList_toString e
  have hdigits : ∀ c ∈ Nat.toDigits 10 n, c.isDigit = true := fun c => isDigit_of_mem_toDigits
  have hall : (Nat.toDigits 10 n).all Char.isDigit = true := List.all_eq_true.2 hdigits
  have hempty : (Nat.toDigits 10 n).isEmpty = false := by simp
  have hsign : splitSign (toString e).toList = (decide (e < 0), Nat.toDigits 10 n) := by
    rw [htext]
    by_cases hneg : e < 0
    · rw [if_pos hneg, decide_eq_true hneg]
      rfl
    · rw [if_neg hneg, decide_eq_false hneg, List.nil_append]
      cases hds : Nat.toDigits 10 n with
      | nil => rw [hds] at hempty; cases hempty
      | cons c cs =>
        have hc : c.isDigit = true := hdigits c (by rw [hds]; exact List.mem_cons_self)
        rw [splitSign, if_neg (ne_of_isDigit hc rfl), if_neg (ne_of_isDigit hc rfl)]
  rw [exponent?, hsign]
  dsimp only
  rw [hempty, hall, digitsValue_toDigits]
  simp only [Bool.not_true, Bool.or_self, Bool.false_eq_true, if_false, decide_eq_true_eq]
  rw [← he]

/-! ## Values -/

theorem mantissa?_point {integer fraction : List Char} (hne : integer ≠ [])
    (hinteger : ∀ c ∈ integer, c.isDigit = true) (hfraction : ∀ c ∈ fraction, c.isDigit = true) :
    mantissa? Char.isDigit (integer ++ point fraction) = some (integer, fraction) := by
  have hempty : integer.isEmpty = false := List.isEmpty_eq_false_iff.2 hne
  have hpoint : ∀ c ∈ integer, (c == '.') = false := fun c hc =>
    beq_false_of_ne (ne_of_isDigit (hinteger c hc) rfl)
  have hsplit : splitAtFirst (· == '.') (integer ++ point fraction) =
      (integer, if fraction.isEmpty then none else some fraction) := by
    cases fraction with
    | nil => exact (congrArg _ (List.append_nil integer)).trans (splitAtFirst_none hpoint)
    | cons c cs => exact splitAtFirst_some hpoint rfl
  have hbehind : (if fraction.isEmpty then none else some fraction).getD [] = fraction := by
    cases fraction <;> rfl
  rw [mantissa?, hsplit]
  dsimp only
  rw [hbehind, hempty, List.all_eq_true.2 hinteger, List.all_eq_true.2 hfraction]
  rfl

theorem decimal?_of_denotes {cs : List Char} {d : Decimal} (h : Denotes cs d) :
    decimal? cs = some d := by
  cases h with
  | @intro integer fraction exponent e hne hinteger hfraction he =>
    have hmark : ∀ c : Char, c.isDigit = true → (c == 'e' || c == 'E') = false := fun c hc =>
      Bool.or_eq_false_iff.2
        ⟨beq_false_of_ne (ne_of_isDigit hc rfl), beq_false_of_ne (ne_of_isDigit hc rfl)⟩
    have hmantissa : ∀ c ∈ integer ++ point fraction, (c == 'e' || c == 'E') = false := by
      intro c hc
      rcases List.mem_append.1 hc with hc | hc
      · exact hmark c (hinteger c hc)
      · rw [point] at hc
        split at hc
        · cases hc
        · rcases List.mem_cons.1 hc with rfl | hc
          · rfl
          · exact hmark c (hfraction c hc)
    rw [decimal?, ← List.append_assoc]
    cases he with
    | none =>
      rw [List.append_nil, splitAtFirst_none hmantissa]
      dsimp only
      rw [mantissa?_point hne hinteger hfraction]
      rfl
    | some e =>
      rw [splitAtFirst_some hmantissa rfl]
      dsimp only
      rw [mantissa?_point hne hinteger hfraction]
      dsimp only [Option.bind_eq_bind, Option.bind_some]
      rw [exponent?_toString]
      rfl

/-- The characters that decimals are written with. -/
theorem of_mem_of_denotes {cs : List Char} {d : Decimal} (h : Denotes cs d) {c : Char}
    (hc : c ∈ cs) : c.isDigit = true ∨ c = '.' ∨ c = 'e' ∨ c = '-' := by
  cases h with
  | @intro integer fraction exponent e hne hinteger hfraction he =>
    rcases List.mem_append.1 hc with hc | hc
    · exact .inl (hinteger c hc)
    rcases List.mem_append.1 hc with hc | hc
    · rw [point] at hc
      split at hc
      · cases hc
      · rcases List.mem_cons.1 hc with hc | hc
        · exact .inr (.inl hc)
        · exact .inl (hfraction c hc)
    · cases he with
      | none => cases hc
      | some e =>
        rcases List.mem_cons.1 hc with hc | hc
        · exact .inr (.inr (.inl hc))
        · obtain ⟨n, htext, -⟩ := toList_toString e
          rw [htext, List.mem_append] at hc
          rcases hc with hc | hc
          · split at hc
            · exact .inr (.inr (.inr (List.mem_singleton.1 hc)))
            · cases hc
          · exact .inl (isDigit_of_mem_toDigits hc)

theorem head_of_denotes {cs : List Char} {d : Decimal} (h : Denotes cs d) :
    ∃ c ds, cs = c :: ds ∧ c.isDigit = true := by
  cases h with
  | @intro integer fraction exponent e hne hinteger hfraction he =>
    cases integer with
    | nil => exact absurd rfl hne
    | cons c integer => exact ⟨c, _, rfl, hinteger c List.mem_cons_self⟩

/-- The words that stand for numbers begin with other letters. -/
theorem word?_of_ne {c : Char} (hi : c.toLower ≠ 'i') (hn : c.toLower ≠ 'n') (cs : List Char) :
    word? (c :: cs) = none := by
  have hhead : ∀ {s : String}, String.ofList ((c :: cs).map Char.toLower) = s →
      s.toList.head? = some c.toLower := by
    rintro s rfl
    rw [String.toList_ofList, List.map_cons, List.head?_cons]
  rw [word?]
  split
  · next h => exact absurd (Option.some.inj (hhead h)).symm hi
  · next h => exact absurd (Option.some.inj (hhead h)).symm hi
  · next h => exact absurd (Option.some.inj (hhead h)).symm hn
  · rfl

theorem word?_of_isDigit {c : Char} (hc : c.isDigit = true) (cs : List Char) :
    word? (c :: cs) = none := by
  have hrange : 48 ≤ c.toNat ∧ c.toNat ≤ 57 := Char.isDigit_iff_toNat.1 hc
  have hlower : c.toLower = c := by
    refine dif_neg fun hupper => ?_
    have hle : 65 ≤ c.toNat := hupper.1
    omega
  refine word?_of_ne ?_ ?_ cs <;> rw [hlower] <;> exact ne_of_isDigit hc rfl

theorem value?_of_denotes {cs : List Char} {d : Decimal} (h : Denotes cs d) :
    value? (String.ofList cs) = some (Double.ofDecimal d) := by
  have hx : ∀ ds, cs ≠ '0' :: 'x' :: ds := by
    rintro ds rfl
    have hx := of_mem_of_denotes h (List.mem_cons_of_mem '0' (List.mem_cons_self (a := 'x')))
    revert hx
    decide
  have hX : ∀ ds, cs ≠ '0' :: 'X' :: ds := by
    rintro ds rfl
    have hX := of_mem_of_denotes h (List.mem_cons_of_mem '0' (List.mem_cons_self (a := 'X')))
    revert hX
    decide
  obtain ⟨c, ds, hcs, hc⟩ := head_of_denotes h
  have hsign : splitSign cs = (false, cs) := by
    rw [hcs, splitSign, if_neg (ne_of_isDigit hc rfl), if_neg (ne_of_isDigit hc rfl)]
  have hword : word? cs = none := by
    rw [hcs]
    exact word?_of_isDigit hc ds
  have hvalue : value? (String.ofList cs) = decimalValue? cs := by
    rw [value?, String.toList_ofList]
    split
    · next ds => exact absurd rfl (hx ds)
    · next ds => exact absurd rfl (hX ds)
    · rfl
  rw [hvalue, decimalValue?, hsign]
  dsimp only
  rw [hword, decimal?_of_denotes h]
  rfl

end Numeral

end LuaSource
