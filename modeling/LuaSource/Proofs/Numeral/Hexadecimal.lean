-- SUMMARY: Where the value of a hexadecimal numeral is exact.
import LuaSource.Proofs.Double.Exact
import LuaSource.Proofs.Numeral.Grammar
import Mathlib.Algebra.Order.Field.Rat
import Mathlib.Tactic.FieldSimp
import Mathlib.Tactic.NormNum
import Mathlib.Tactic.Ring

/-!
# Hexadecimal numerals

A hexadecimal numeral writes a mantissa times a power of two. If a double is what it writes, then
the sum of its digits is formed without loss as far as the power of sixteen that a digit counts is
not zero itself. So the value is this double if the digits behind these are zero, the digits before
the point do not make the sum infinite, and the power of two is neither zero nor infinite. Otherwise
it is another one.
-/

namespace LuaSource

/-! ## Digits -/

theorem sixteen_pow (k : Nat) : 16 ^ k = 2 ^ (4 * k) := by
  rw [Nat.pow_mul]

theorem digitsValue_append (base : Nat) (as bs : List Char) :
    digitsValue base (as ++ bs) = digitsValue base as * base ^ bs.length + digitsValue base bs := by
  induction bs using List.reverseRecOn with
  | nil => simp
  | append_singleton bs c ih =>
    rw [← List.append_assoc, digitsValue_concat, digitsValue_concat, ih, List.length_append,
      List.length_singleton, Nat.pow_succ]
    ring

theorem digitsValue_cons (base : Nat) (c : Char) (cs : List Char) :
    digitsValue base (c :: cs) = digitValue c * base ^ cs.length + digitsValue base cs := by
  rw [← List.singleton_append, digitsValue_append, digitsValue, List.foldl_cons, List.foldl_nil,
    Nat.zero_mul, Nat.zero_add]

theorem digitValue_lt {c : Char} (h : isHexDigit c = true) : digitValue c < 16 := by
  simp only [isHexDigit, Bool.or_eq_true, Bool.and_eq_true, decide_eq_true_eq] at h
  rw [digitValue]
  split
  · next hdigit =>
    have hrange : 48 ≤ c.toNat ∧ c.toNat ≤ 57 := Char.isDigit_iff_toNat.1 hdigit
    show c.toNat - 48 < 16
    omega
  · next hdigit =>
    split
    · next hlower =>
      have hle : c.toNat ≤ 102 := hlower.2
      show c.toNat - 97 + 10 < 16
      omega
    · next hlower =>
      rcases h with (h | h) | h
      · exact absurd h hdigit
      · exact absurd h hlower
      · have hle : c.toNat ≤ 70 := h.2
        show c.toNat - 65 + 10 < 16
        omega

theorem digitValue_eq_zero_iff {c : Char} : digitValue c = 0 ↔ c = '0' := by
  refine ⟨fun hzero => ?_, fun hc => hc ▸ rfl⟩
  rw [digitValue] at hzero
  split at hzero
  · next hdigit =>
    have hrange : 48 ≤ c.toNat ∧ c.toNat ≤ 57 := Char.isDigit_iff_toNat.1 hdigit
    have hsub : c.toNat - 48 = 0 := hzero
    refine Char.toNat_inj.1 (?_ : c.toNat = 48)
    omega
  · split at hzero <;> omega

theorem digitsValue_lt {ds : List Char} (h : ∀ c ∈ ds, isHexDigit c = true) :
    digitsValue 16 ds < 16 ^ ds.length := by
  induction ds using List.reverseRecOn with
  | nil => simp
  | append_singleton ds c ih =>
    have hds := ih fun d hd => h d (List.mem_append_left _ hd)
    have hc := digitValue_lt (h c (by simp))
    rw [digitsValue_concat, List.length_append, List.length_singleton, Nat.pow_succ]
    omega

/-- The leading digits have few digits if all have. -/
theorem Double.Short.leading {n : Nat} {ds : List Char} (hds : ∀ c ∈ ds, isHexDigit c = true)
    (h : Short (n * 16 ^ ds.length + digitsValue 16 ds)) : Short n := by
  have hdiv := h.div_two_pow (4 * ds.length)
  rwa [← sixteen_pow, Nat.add_comm,
    Nat.add_mul_div_right _ _ (Nat.pow_pos (by decide)), Nat.div_eq_of_lt (digitsValue_lt hds),
    Nat.zero_add] at hdiv

theorem digitsValue_eq_zero_iff {ds : List Char} :
    digitsValue 16 ds = 0 ↔ ∀ c ∈ ds, c = '0' := by
  induction ds using List.reverseRecOn with
  | nil => simp
  | append_singleton ds c ih =>
    have hsum : digitsValue 16 ds * 16 + digitValue c = 0 ↔
        digitsValue 16 ds = 0 ∧ digitValue c = 0 := by omega
    rw [digitsValue_concat, hsum, ih, digitValue_eq_zero_iff]
    simp [or_imp, forall_and]

/-- The exact value of a finite double. -/
def Double.value (x : Double) : ℚ := x.signedUnits / unitsPerOne

namespace Numeral

open Double

/-! ## Numerals -/

/-- Digits with a point among or beside them, or without one; a digit there has to be. -/
inductive IsHexMantissa : List Char → List Char → List Char → Prop
  | integer {ds : List Char} (h : ds ≠ []) : IsHexMantissa ds ds []
  | point {ds es : List Char} (h : ds ≠ [] ∨ es ≠ []) : IsHexMantissa (ds ++ '.' :: es) ds es

/-- An exponent with its mark, a sign at most and decimal digits; or nothing, which is zero. -/
inductive IsHexScale : List Char → Int → Prop
  | missing : IsHexScale [] 0
  | exponent {mark : Char} {sign ds : List Char} (hmark : mark = 'p' ∨ mark = 'P')
    (hsign : sign = [] ∨ sign = ['+'] ∨ sign = ['-']) (hne : ds ≠ [])
    (hds : ∀ c ∈ ds, c.isDigit = true) :
    IsHexScale (mark :: (sign ++ ds))
      (if sign = ['-'] then -(digitsValue 10 ds : Int) else digitsValue 10 ds)

/-- A well-formed hexadecimal numeral, with its digits before and behind the point and its
exponent. -/
structure IsHexadecimal (numeral : String) (integer fraction : List Char) (exponent : Int) :
    Prop where
  text : ∃ x mantissa scale, numeral.toList = '0' :: x :: (mantissa ++ scale) ∧
    (x = 'x' ∨ x = 'X') ∧ IsHexMantissa mantissa integer fraction ∧ IsHexScale scale exponent
  integer : ∀ c ∈ integer, isHexDigit c = true
  fraction : ∀ c ∈ fraction, isHexDigit c = true

/-- The number that a hexadecimal numeral writes. -/
def hexadecimal (integer fraction : List Char) (exponent : Int) : ℚ :=
  (digitsValue 16 integer + digitsValue 16 fraction / 16 ^ fraction.length) * 2 ^ exponent

/-! ## Reading -/

/-- The sum of the digits. -/
def hexSum (integer fraction : List Char) : Double :=
  addFraction (integerValue integer) sixteenth fraction

theorem exponent?_of_digits {sign ds : List Char} (hsign : sign = [] ∨ sign = ['+'] ∨ sign = ['-'])
    (hne : ds ≠ []) (hds : ∀ c ∈ ds, c.isDigit = true) :
    exponent? (sign ++ ds) =
      some (if sign = ['-'] then -(digitsValue 10 ds : Int) else digitsValue 10 ds) := by
  have hsplit : splitSign (sign ++ ds) = (decide (sign = ['-']), ds) := by
    rcases hsign with rfl | rfl | rfl
    · obtain ⟨c, cs, rfl⟩ := List.exists_cons_of_ne_nil hne
      have hc := hds c List.mem_cons_self
      rw [List.nil_append, splitSign, if_neg (ne_of_isDigit hc rfl),
        if_neg (ne_of_isDigit hc rfl)]
      rfl
    · rfl
    · rfl
  rw [exponent?, hsplit]
  dsimp only
  rw [List.isEmpty_eq_false_iff.2 hne, List.all_eq_true.2 hds]
  simp only [Bool.not_true, Bool.or_self, Bool.false_eq_true, if_false, decide_eq_true_eq]

theorem mantissa?_of_isHexMantissa {mantissa integer fraction : List Char}
    (h : IsHexMantissa mantissa integer fraction) (hi : ∀ c ∈ integer, isHexDigit c = true)
    (hf : ∀ c ∈ fraction, isHexDigit c = true) :
    mantissa? isHexDigit mantissa = some (integer, fraction) := by
  have hpoint : ∀ c ∈ integer, (c == '.') = false := fun c hc =>
    beq_false_of_ne (@ne_of_isMantissaDigit true c '.' (hi c hc) rfl)
  cases h with
  | integer hne =>
    rw [mantissa?, splitAtFirst_none hpoint]
    dsimp only [Option.getD_none]
    rw [List.isEmpty_eq_false_iff.2 hne, List.all_eq_true.2 hi]
    rfl
  | point hne =>
    have hempty : (integer.isEmpty && fraction.isEmpty) = false := by
      rcases hne with hne | hne
      · rw [List.isEmpty_eq_false_iff.2 hne, Bool.false_and]
      · rw [List.isEmpty_eq_false_iff.2 hne, Bool.and_false]
    rw [mantissa?, splitAtFirst_some hpoint rfl]
    dsimp only [Option.getD_some]
    rw [if_neg (ne_true_of_eq_false hempty),
      if_pos (Bool.and_eq_true_iff.2 ⟨List.all_eq_true.2 hi, List.all_eq_true.2 hf⟩)]

theorem twoPow_clampExponent (n : Int) : twoPow (clampExponent n) = twoPow n := by
  have hclamp : clampExponent n = n ∨ (1024 ≤ n ∧ 1024 ≤ clampExponent n) ∨
      (n ≤ -1024 ∧ clampExponent n ≤ -1024) := by
    simp only [clampExponent, exponentBound]
    omega
  rcases hclamp with heq | ⟨hn, hc⟩ | ⟨hn, hc⟩
  · rw [heq]
  · rw [twoPow, if_pos hc, twoPow, if_pos hn]
  · rw [twoPow, if_neg (by omega), if_pos hc, twoPow, if_neg (by omega), if_pos hn]

theorem not_mark_of_isHexMantissa {mantissa integer fraction : List Char}
    (h : IsHexMantissa mantissa integer fraction) (hi : ∀ c ∈ integer, isHexDigit c = true)
    (hf : ∀ c ∈ fraction, isHexDigit c = true) :
    ∀ c ∈ mantissa, (c == 'p' || c == 'P') = false := by
  have hdigit : ∀ c, isHexDigit c = true → (c == 'p' || c == 'P') = false := fun c hc =>
    Bool.or_eq_false_iff.2
      ⟨beq_false_of_ne (@ne_of_isMantissaDigit true c 'p' hc (by decide)),
        beq_false_of_ne (@ne_of_isMantissaDigit true c 'P' hc (by decide))⟩
  cases h with
  | integer => exact fun c hc => hdigit c (hi c hc)
  | point =>
    exact List.forall_mem_append.2 ⟨fun c hc => hdigit c (hi c hc),
      List.forall_mem_cons.2 ⟨rfl, fun c hc => hdigit c (hf c hc)⟩⟩

/-! ## No sum is no number -/

theorem isNaN_add {x y : Double} (hx : x.Unsigned) (hy : y.Unsigned) (hxn : x.isNaN = false)
    (hyn : y.isNaN = false) : (x + y).isNaN = false := by
  rcases finite_or_infinity hx hxn with hxf | rfl
  · rcases finite_or_infinity hy hyn with hyf | rfl
    · rw [add_of_finite hx hy hxf hyf]
      exact isNaN_nearest _
    · rw [add_infinity hxf]
      rfl
  · rw [infinity_add hy hyn]
    rfl

/-- A finite factor that is not zero makes no number of what is one. -/
theorem isNaN_mul {x y : Double} (hx : x.Unsigned) (hy : y.Unsigned) (hxn : x.isNaN = false)
    (hyf : y.magnitude < infiniteMagnitude) (hyz : y.isZero = false) : (x * y).isNaN = false := by
  rcases finite_or_infinity hx hxn with hxf | rfl
  · rw [mul_of_finite hx hy hxf hyf]
    exact isNaN_ofUnits _ _ _
  · rw [infinity_mul hy (isNaN_of_finite hyf), hyz]
    rfl

/-! ## The sum before the point -/

theorem sixteen_eq : sixteen = nearest (2 ^ (unitExponent + 4)) := by
  rw [sixteen, ofNat_eq_nearest, Nat.pow_add, Nat.mul_comm]

theorem integerValue_concat (ds : List Char) (c : Char) :
    integerValue (ds ++ [c]) = integerValue ds * sixteen + Double.ofNat (digitValue c) := by
  rw [integerValue, List.foldl_append]
  rfl

theorem isNaN_integerValue (ds : List Char) : (integerValue ds).isNaN = false := by
  induction ds using List.reverseRecOn with
  | nil => rfl
  | append_singleton ds c ih =>
    have hx := unsigned_integerValue ds
    obtain ⟨hfinite, -, hzero⟩ := nearest_two_pow (s := unitExponent + 4) (by omega)
    rw [← sixteen_eq] at hfinite hzero
    rw [integerValue_concat]
    exact isNaN_add (hx.mul rfl) (unsigned_nearest _) (isNaN_mul hx rfl ih hfinite hzero)
      (isNaN_nearest _)

theorem short_digit {d : Nat} (h : d < 16) :
    Short (d * 2 ^ unitExponent) ∧ d * 2 ^ unitExponent < overflow := by
  refine ⟨(short_of_lt (Nat.lt_trans h (by decide))).mul_two_pow _, ?_⟩
  calc d * 2 ^ unitExponent < 2 ^ 4 * 2 ^ unitExponent :=
        Nat.mul_lt_mul_of_pos_right h (Nat.two_pow_pos _)
    _ = 2 ^ (4 + unitExponent) := (Nat.pow_add 2 4 _).symm
    _ ≤ overflow := two_pow_le_overflow (by omega)

theorem nearest_mul_sixteen {n : Nat} (h : Short n) : nearest n * sixteen = nearest (n * 16) := by
  have hlt : unitExponent + 4 < unitExponent + 1024 := by omega
  rw [sixteen_eq]
  by_cases ho : overflow ≤ n
  · obtain ⟨-, -, hzero⟩ := nearest_two_pow hlt
    rw [nearest_of_overflow ho,
      nearest_of_overflow (Nat.le_trans ho (Nat.le_mul_of_pos_right n (by decide))),
      infinity_mul (unsigned_nearest _) (isNaN_nearest _), hzero]
    rfl
  · have hproduct : n * 2 ^ (unitExponent + 4) = n * 16 * 2 ^ unitExponent := by
      rw [Nat.pow_add, Nat.mul_comm (2 ^ unitExponent), Nat.mul_assoc]
    rw [h.nearest_mul (short_two_pow _) (Nat.lt_of_not_le ho) (two_pow_lt_overflow hlt), hproduct,
      ofUnits_mul _ (Nat.two_pow_pos _)]

theorem integerValue_eq {ds : List Char} (hds : ∀ c ∈ ds, isHexDigit c = true)
    (h : Short (digitsValue 16 ds)) :
    integerValue ds = nearest (digitsValue 16 ds * 2 ^ unitExponent) := by
  induction ds using List.reverseRecOn with
  | nil =>
    rw [digitsValue_nil, Nat.zero_mul, nearest_zero]
    rfl
  | append_singleton ds c ih =>
    obtain ⟨hds, hc⟩ := List.forall_mem_append.1 hds
    rw [digitsValue_append] at h
    have hleading := h.leading hc
    have hunits : Short (digitsValue 16 ds * 2 ^ unitExponent) := hleading.mul_two_pow _
    have hscaled : Short (digitsValue 16 ds * 2 ^ unitExponent * 16) := hunits.mul_two_pow 4
    rw [integerValue_concat, ih hds hleading, nearest_mul_sixteen hunits, ofNat_eq_nearest,
      hscaled.nearest_add (short_digit (digitValue_lt (hc c (by simp)))).1,
      digitsValue_concat, Nat.add_mul, Nat.mul_right_comm]

/-! ## The sum behind the point -/

/-- The units of a digit behind the point, if it is one. -/
def weight (k : Nat) : Nat := 2 ^ unitExponent / 16 ^ k

/-- The number of digits behind the point that count at all. -/
def countedDigits : Nat := 268

theorem weight_zero : weight 0 = 2 ^ unitExponent := by
  rw [weight, Nat.pow_zero, Nat.div_one]

theorem weight_eq_two_pow {k : Nat} (hk : k ≤ countedDigits) :
    weight k = 2 ^ (unitExponent - 4 * k) ∧ 4 * k ≤ unitExponent := by
  have hle : 4 * k ≤ unitExponent := by
    rw [unitExponent_eq]
    exact Nat.le_trans (Nat.mul_le_mul_left 4 hk) (by decide)
  rw [weight, sixteen_pow, Nat.pow_div hle Nat.two_pos]
  exact ⟨rfl, hle⟩

theorem weight_of_lt {k : Nat} (hk : countedDigits < k) : weight k = 0 := by
  refine Nat.div_eq_of_lt ?_
  rw [sixteen_pow]
  refine Nat.pow_lt_pow_right (by decide) ?_
  rw [unitExponent_eq]
  have hk : 268 < k := hk
  omega

theorem short_mul_weight {n : Nat} (h : Short n) (k : Nat) : Short (n * weight k) := by
  rcases Nat.lt_or_ge countedDigits k with hk | hk
  · rw [weight_of_lt hk, Nat.mul_zero]
    exact short_of_lt (by decide)
  · rw [(weight_eq_two_pow hk).1]
    exact h.mul_two_pow _

theorem short_weight (k : Nat) : Short (weight k) ∧ weight k < overflow := by
  refine ⟨?_, Nat.lt_of_le_of_lt (Nat.div_le_self _ _) (two_pow_lt_overflow (by omega))⟩
  have h := short_mul_weight (short_of_lt (n := 1) (by decide)) k
  rwa [Nat.one_mul] at h

/-- Up to the last digit that counts, weights are exact. -/
theorem weight_mul {k : Nat} (hk : k ≤ countedDigits) : weight k * 16 ^ k = 2 ^ unitExponent := by
  obtain ⟨hweight, hle⟩ := weight_eq_two_pow hk
  rw [hweight, sixteen_pow, ← Nat.pow_add, Nat.sub_add_cancel hle]

theorem weight_eq {k : Nat} (hk : k < countedDigits) : weight k = 16 * weight (k + 1) := by
  refine Nat.eq_of_mul_eq_mul_right (Nat.pow_pos (n := k) (show 0 < 16 by decide)) ?_
  rw [weight_mul (Nat.le_of_lt hk), Nat.mul_comm 16, Nat.mul_assoc, Nat.mul_comm 16,
    ← Nat.pow_succ, weight_mul hk]

theorem sixteenth_eq : sixteenth = nearest (weight 1) := by
  have hunits : 1 * unitsPerOne = weight 1 * 16 := by
    rw [Nat.one_mul, unitsPerOne_eq, ← weight_mul (k := 1) (by decide), Nat.pow_one]
  rw [sixteenth, ofRatio, hunits, ofUnits_mul _ (by decide)]

theorem nearest_weight_mul (k : Nat) :
    nearest (weight k) * sixteenth = nearest (weight (k + 1)) := by
  rcases Nat.lt_trichotomy k countedDigits with hk | rfl | hk
  · have hproduct : weight k * weight 1 = weight (k + 1) * 2 ^ unitExponent := by
      rw [weight_eq hk, Nat.mul_comm 16, Nat.mul_assoc, Nat.mul_comm 16,
        ← weight_mul (k := 1) (by decide), Nat.pow_one]
    rw [sixteenth_eq, (short_weight k).1.nearest_mul (short_weight 1).1 (short_weight k).2
      (short_weight 1).2, hproduct, ofUnits_mul _ (Nat.two_pow_pos _)]
  · decide +kernel
  · rw [weight_of_lt hk, weight_of_lt (Nat.lt_succ_of_lt hk)]
    decide +kernel

theorem addFraction_cons {x : Double} {k : Nat} {c : Char} (hc : isHexDigit c = true)
    (cs : List Char) :
    addFraction x (nearest (weight k)) (c :: cs) =
      addFraction (x + nearest (digitValue c * weight k)) (nearest (weight (k + 1))) cs := by
  obtain ⟨hshort, hlt⟩ := short_digit (digitValue_lt hc)
  rw [addFraction, nearest_weight_mul, ofNat_eq_nearest,
    hshort.nearest_mul (short_weight k).1 hlt (short_weight k).2, Nat.mul_right_comm,
    ofUnits_mul _ (Nat.two_pow_pos _)]

theorem isNaN_addFraction {x : Double} (hx : x.Unsigned) (hnan : x.isNaN = false) (k : Nat)
    {ds : List Char} (hds : ∀ c ∈ ds, isHexDigit c = true) :
    (addFraction x (nearest (weight k)) ds).isNaN = false := by
  induction ds generalizing x k with
  | nil => exact hnan
  | cons c cs ih =>
    obtain ⟨hc, hcs⟩ := List.forall_mem_cons.1 hds
    rw [addFraction_cons hc]
    exact ih (hx.add (unsigned_nearest _))
      (isNaN_add hx (unsigned_nearest _) hnan (isNaN_nearest _)) _ hcs

/-- Behind the digits that count, nothing is added. -/
theorem addFraction_of_lt {x : Double} (hx : x.Unsigned) (hnan : x.isNaN = false) {k : Nat}
    (hk : countedDigits < k) {ds : List Char} (hds : ∀ c ∈ ds, isHexDigit c = true) :
    addFraction x (nearest (weight k)) ds = x := by
  induction ds generalizing k with
  | nil => rfl
  | cons c cs ih =>
    obtain ⟨hc, hcs⟩ := List.forall_mem_cons.1 hds
    rw [addFraction_cons hc, weight_of_lt hk, Nat.mul_zero, nearest_zero, add_zero hx hnan]
    exact ih (Nat.lt_succ_of_lt hk) hcs

/-- The digits that count are added without loss. -/
theorem addFraction_append {n k : Nat} {ds : List Char} (hk : k + ds.length ≤ countedDigits)
    (hds : ∀ c ∈ ds, isHexDigit c = true)
    (h : Short (n * 16 ^ ds.length + digitsValue 16 ds)) (es : List Char) :
    addFraction (nearest (n * weight k)) (nearest (weight (k + 1))) (ds ++ es) =
      addFraction (nearest ((n * 16 ^ ds.length + digitsValue 16 ds) * weight (k + ds.length)))
        (nearest (weight (k + ds.length + 1))) es := by
  induction ds generalizing n k with
  | nil => simp
  | cons c ds ih =>
    obtain ⟨hc, hds'⟩ := List.forall_mem_cons.1 hds
    rw [List.length_cons] at hk
    have hdigits : n * 16 ^ (c :: ds).length + digitsValue 16 (c :: ds) =
        (n * 16 + digitValue c) * 16 ^ ds.length + digitsValue 16 ds := by
      rw [digitsValue_cons, List.length_cons, Nat.pow_succ]
      ring
    have hsum : n * weight k + digitValue c * weight (k + 1) =
        (n * 16 + digitValue c) * weight (k + 1) := by
      rw [weight_eq (by omega), Nat.add_mul, Nat.mul_assoc]
    have hlength : k + (c :: ds).length = k + 1 + ds.length := by
      rw [List.length_cons]
      omega
    have hn := short_mul_weight (h.leading hds) k
    have hd : Short (digitValue c) := short_of_lt (Nat.lt_trans (digitValue_lt hc) (by decide))
    rw [hdigits] at h
    rw [List.cons_append, addFraction_cons hc, hn.nearest_add (short_mul_weight hd _), hsum,
      ih (by omega) hds' h, hdigits, hlength]

/-! ## The sum of all digits -/

section Sum

variable {integer fraction : List Char} {n : Int} {y : Double}

/-- The digits up to the last that counts. -/
def counted (integer fraction : List Char) : List Char := integer ++ fraction.take countedDigits

theorem digitsValue_eq_counted (integer fraction : List Char) :
    digitsValue 16 (integer ++ fraction) =
      digitsValue 16 (counted integer fraction) * 16 ^ (fraction.drop countedDigits).length +
        digitsValue 16 (fraction.drop countedDigits) := by
  rw [counted, ← digitsValue_append, List.append_assoc, List.take_append_drop]

theorem short_counted (hf : ∀ c ∈ fraction, isHexDigit c = true)
    (h : Short (digitsValue 16 (integer ++ fraction))) :
    Short (digitsValue 16 (counted integer fraction)) := by
  rw [digitsValue_eq_counted] at h
  exact h.leading fun c hc => hf c (List.mem_of_mem_drop hc)

theorem unsigned_hexSum (integer fraction : List Char) : (hexSum integer fraction).Unsigned :=
  @unsigned_addFraction _ sixteenth (unsigned_integerValue integer) rfl fraction

theorem isNaN_hexSum (integer : List Char) (hf : ∀ c ∈ fraction, isHexDigit c = true) :
    (hexSum integer fraction).isNaN = false := by
  rw [hexSum, sixteenth_eq]
  exact isNaN_addFraction (unsigned_integerValue integer) (isNaN_integerValue integer) 1 hf

/-- What has few digits is summed up without loss as far as its digits count. -/
theorem hexSum_eq (hi : ∀ c ∈ integer, isHexDigit c = true)
    (hf : ∀ c ∈ fraction, isHexDigit c = true) (h : Short (digitsValue 16 (integer ++ fraction))) :
    hexSum integer fraction = nearest (digitsValue 16 (counted integer fraction) *
      weight (fraction.take countedDigits).length) := by
  have hsplit := List.take_append_drop countedDigits fraction
  have htake : ∀ c ∈ fraction.take countedDigits, isHexDigit c = true := fun c hc =>
    hf c (List.mem_of_mem_take hc)
  have hdrop : ∀ c ∈ fraction.drop countedDigits, isHexDigit c = true := fun c hc =>
    hf c (List.mem_of_mem_drop hc)
  have hlength : (fraction.take countedDigits).length ≤ countedDigits := List.length_take_le _ _
  have hcounted := short_counted hf h
  rw [counted, digitsValue_append] at hcounted
  have hinteger := integerValue_eq hi (hcounted.leading htake)
  have hsum := addFraction_append (k := 0) (by omega) htake hcounted
    (fraction.drop countedDigits)
  simp only [Nat.zero_add, weight_zero, hsplit, ← hinteger, ← digitsValue_append] at hsum
  rw [hexSum, sixteenth_eq, hsum, counted]
  -- Either all digits count, or those that do not have a weight of zero.
  rcases Nat.lt_or_ge countedDigits fraction.length with hlt | hge
  · refine addFraction_of_lt (unsigned_nearest _) (isNaN_nearest _) ?_ hdrop
    rw [List.length_take]
    omega
  · rw [List.drop_eq_nil_of_le hge]
    rfl

/-- The value of a numeral is the sum of its digits times the power of two. -/
theorem value?_eq_hexSum_mul {numeral : String}
    (h : IsHexadecimal numeral integer fraction n) :
    value? numeral = some (hexSum integer fraction * twoPow n) := by
  obtain ⟨x, mantissa, scale, htext, hx, hmantissa, hscale⟩ := h.text
  have hvalue : value? numeral = hexValue? (mantissa ++ scale) := by
    rw [value?, htext]
    rcases hx with rfl | rfl <;> rfl
  have hmark := not_mark_of_isHexMantissa hmantissa h.integer h.fraction
  have hdigits := mantissa?_of_isHexMantissa hmantissa h.integer h.fraction
  rw [hvalue, hexValue?]
  cases hscale with
  | missing =>
    rw [List.append_nil, splitAtFirst_none hmark]
    dsimp only
    rw [hdigits,
      mul_twoPow_zero (unsigned_hexSum integer fraction) (isNaN_hexSum integer h.fraction)]
    rfl
  | exponent hm hsign hne hds =>
    rw [splitAtFirst_some hmark (by rcases hm with rfl | rfl <;> rfl)]
    dsimp only
    rw [hdigits, Option.bind_eq_bind, Option.bind_some]
    dsimp only
    rw [exponent?_of_digits hsign hne hds, Option.bind_eq_bind, Option.bind_some,
      twoPow_clampExponent]
    rfl

end Sum

/-! ## Exact values -/

section Exact

variable {integer fraction : List Char} {n : Int} {y : Double}

theorem value_eq_units (hy : y.Unsigned) : y.value = y.units / 2 ^ unitExponent := by
  rw [Double.value, signedUnits, show y.negative = false from hy, unitsPerOne_eq]
  push_cast
  rfl

theorem hexadecimal_eq (integer fraction : List Char) (n : Int) :
    hexadecimal integer fraction n =
      digitsValue 16 (integer ++ fraction) / 16 ^ fraction.length * 2 ^ n := by
  rw [hexadecimal, digitsValue_append]
  push_cast
  field_simp

/-- A double is what a numeral writes if it is so in units, with whole numbers on both sides. -/
theorem units_mul_of_value (hy : y.Unsigned) (hvalue : y.value = hexadecimal integer fraction n)
    (hn : -1024 < n) :
    y.units * 16 ^ fraction.length =
      digitsValue 16 (integer ++ fraction) * 2 ^ (unitExponent + n).toNat := by
  have hexponent : (2 : ℚ) ^ n * 2 ^ unitExponent = 2 ^ (unitExponent + n).toNat := by
    have hnonneg : (((unitExponent + n).toNat : Nat) : Int) = n + unitExponent := by
      rw [unitExponent_eq]
      omega
    rw [← zpow_natCast, ← zpow_natCast, hnonneg, zpow_add₀ two_ne_zero]
  rw [value_eq_units hy, hexadecimal_eq, div_eq_iff (pow_ne_zero _ two_ne_zero)]
    at hvalue
  have hcast : (y.units : ℚ) * 16 ^ fraction.length =
      digitsValue 16 (integer ++ fraction) * 2 ^ (unitExponent + n).toNat := by
    rw [hvalue, ← hexponent]
    field_simp
  exact_mod_cast hcast

/-- What a double is equal to has few digits. -/
theorem short_of_value (hy : y.Unsigned) (hvalue : y.value = hexadecimal integer fraction n)
    (hn : -1024 < n) : Short (digitsValue 16 (integer ++ fraction)) := by
  have h := (short_unitsOf y.magnitude).mul_two_pow (4 * fraction.length)
  rw [← sixteen_pow] at h
  have hunits : Short (y.units * 16 ^ fraction.length) := h
  rw [units_mul_of_value hy hvalue hn] at hunits
  exact hunits.of_mul_two_pow

/-- The sum is finite if and only if the digits before the point are not too great. -/
theorem counted_lt_overflow_iff (integer : List Char) (hf : ∀ c ∈ fraction, isHexDigit c = true) :
    digitsValue 16 (counted integer fraction) * weight (fraction.take countedDigits).length <
      overflow ↔ digitsValue 16 integer < 2 ^ 1024 := by
  have htake : ∀ c ∈ fraction.take countedDigits, isHexDigit c = true := fun c hc =>
    hf c (List.mem_of_mem_take hc)
  have hlt := digitsValue_lt htake
  have hweight := weight_mul (List.length_take_le countedDigits fraction)
  have hpos : 0 < weight (fraction.take countedDigits).length :=
    Nat.pos_of_mul_pos_right (hweight ▸ Nat.two_pow_pos unitExponent)
  rw [counted, digitsValue_append]
  generalize weight (fraction.take countedDigits).length = w at hweight hpos ⊢
  generalize 16 ^ (fraction.take countedDigits).length = p at hweight hlt ⊢
  generalize digitsValue 16 (fraction.take countedDigits) = d at hlt ⊢
  have hoverflow : ∀ e, 2 ^ (unitExponent + e) = 2 ^ e * p * w := fun e => by
    rw [Nat.pow_add, ← hweight]
    ac_rfl
  have hoverflow : overflow = 2 ^ 1024 * p * w := hoverflow 1024
  generalize 2 ^ 1024 = e at hoverflow ⊢
  rw [hoverflow, Nat.mul_lt_mul_right hpos]
  constructor
  · intro h
    exact Nat.lt_of_mul_lt_mul_right (Nat.lt_of_le_of_lt (Nat.le_add_right _ d) h)
  · intro h
    have hle := Nat.mul_le_mul_right p (Nat.succ_le_of_lt h)
    rw [Nat.succ_mul] at hle
    omega

theorem sixteen_pow_length (fraction : List Char) :
    16 ^ fraction.length =
      16 ^ (fraction.take countedDigits).length * 16 ^ (fraction.drop countedDigits).length := by
  rw [← Nat.pow_add, ← List.length_append, List.take_append_drop]

/-- Without digits that do not count nothing is lost. -/
theorem counted_eq_units (hy : y.Unsigned) (hvalue : y.value = hexadecimal integer fraction n)
    (hn : -1024 < n) (hzero : ∀ c ∈ fraction.drop countedDigits, c = '0') :
    digitsValue 16 (counted integer fraction) * weight (fraction.take countedDigits).length *
      2 ^ (unitExponent + n).toNat = y.units * 2 ^ unitExponent := by
  have hunits := units_mul_of_value hy hvalue hn
  have hweight := weight_mul (List.length_take_le countedDigits fraction)
  rw [digitsValue_eq_counted, digitsValue_eq_zero_iff.2 hzero, Nat.add_zero, sixteen_pow_length,
    ← Nat.mul_assoc, Nat.mul_right_comm _ (16 ^ (fraction.drop countedDigits).length)] at hunits
  have hcancel := Nat.eq_of_mul_eq_mul_right (Nat.pow_pos (by decide)) hunits
  rw [Nat.mul_right_comm, ← hcancel, Nat.mul_assoc, Nat.mul_comm (16 ^ _), hweight]

/-- With a digit that does not count, the double is not what the others make. -/
theorem counted_lt_units (hf : ∀ c ∈ fraction, isHexDigit c = true) (hy : y.Unsigned)
    (hvalue : y.value = hexadecimal integer fraction n) (hn : -1024 < n)
    (hne : ¬ ∀ c ∈ fraction.drop countedDigits, c = '0') :
    ∃ t, digitsValue 16 (counted integer fraction) * weight (fraction.take countedDigits).length *
      2 ^ (unitExponent + n).toNat =
        digitsValue 16 (counted integer fraction) * 2 ^ t * 2 ^ unitExponent ∧
      digitsValue 16 (counted integer fraction) * 2 ^ t < y.units := by
  have hunits := units_mul_of_value hy hvalue hn
  have hrest := mt digitsValue_eq_zero_iff.1 hne
  have hlt := digitsValue_lt fun c hc => hf c (List.mem_of_mem_drop (i := countedDigits) hc)
  have hlength : (fraction.take countedDigits).length = countedDigits := by
    rw [List.length_take, Nat.min_eq_left]
    refine Nat.le_of_not_lt fun hlt => hrest ?_
    rw [List.drop_eq_nil_of_le (Nat.le_of_lt hlt)]
    rfl
  obtain ⟨hweight, hle⟩ := weight_eq_two_pow (Nat.le_refl countedDigits)
  rw [digitsValue_eq_counted, sixteen_pow_length, hlength, sixteen_pow, sixteen_pow] at hunits
  rw [sixteen_pow] at hlt
  rw [hlength, hweight]
  generalize 4 * countedDigits = e at hunits hle ⊢
  generalize digitsValue 16 (counted integer fraction) = d at hunits ⊢
  generalize 4 * (fraction.drop countedDigits).length = k at hunits hlt
  generalize digitsValue 16 (fraction.drop countedDigits) = r at hunits hlt hrest
  generalize (unitExponent + n).toNat = T at hunits ⊢
  have hpos := Nat.two_pow_pos k
  rcases Nat.lt_or_ge T e with hTe | hTe
  · -- The last digits would be a multiple of what they are less than.
    obtain ⟨j, rfl⟩ := Nat.exists_eq_add_of_lt hTe
    have hcancel : y.units * 2 ^ (j + 1) * 2 ^ k = d * 2 ^ k + r := by
      refine Nat.eq_of_mul_eq_mul_right (Nat.two_pow_pos T) ?_
      rw [← hunits]
      ring
    have hmod := congrArg (· % 2 ^ k) hcancel
    simp only [Nat.mul_mod_left, Nat.mul_add_mod_self_right, Nat.mod_eq_of_lt hlt] at hmod
    exact absurd hmod.symm hrest
  · obtain ⟨t, rfl⟩ := Nat.exists_eq_add_of_le hTe
    refine ⟨t, ?_, ?_⟩
    · rw [Nat.mul_assoc, Nat.mul_assoc, ← Nat.pow_add, ← Nat.pow_add]
      congr 2
      omega
    · have hcancel : y.units * 2 ^ k = (d * 2 ^ k + r) * 2 ^ t := by
        refine Nat.eq_of_mul_eq_mul_right (Nat.two_pow_pos e) ?_
        rw [Nat.mul_assoc, Nat.mul_comm (2 ^ k), hunits]
        ring
      have hless : d * 2 ^ k * 2 ^ t < y.units * 2 ^ k := by
        rw [hcancel]
        exact Nat.mul_lt_mul_of_pos_right (Nat.lt_add_of_pos_right (Nat.pos_of_ne_zero hrest))
          (Nat.two_pow_pos t)
      rw [Nat.mul_right_comm] at hless
      exact Nat.lt_of_mul_lt_mul_right hless

/-- Where the power of two is a number other than zero, the value is the double that the numeral
writes if all digits are summed up. -/
theorem hexSum_mul_eq_iff (hi : ∀ c ∈ integer, isHexDigit c = true)
    (hf : ∀ c ∈ fraction, isHexDigit c = true) (hy : y.Unsigned)
    (hfinite : y.magnitude < infiniteMagnitude)
    (hvalue : y.value = hexadecimal integer fraction n) (hlow : -1024 < n) (hhigh : n < 1024) :
    hexSum integer fraction * twoPow n = y ↔
      digitsValue 16 integer < 2 ^ 1024 ∧ ∀ c ∈ fraction.drop countedDigits, c = '0' := by
  have hT : (unitExponent + n).toNat < unitExponent + 1024 := by omega
  obtain ⟨hpfinite, hpunits, hpzero⟩ := nearest_two_pow hT
  have hoverflow := counted_lt_overflow_iff integer hf
  have hshort := short_of_value hy hvalue hlow
  have hcounted := short_counted hf hshort
  rw [hexSum_eq hi hf hshort, twoPow_eq hlow hhigh, ← hoverflow]
  by_cases hlt : digitsValue 16 (counted integer fraction) *
      weight (fraction.take countedDigits).length < overflow
  · rw [(short_mul_weight hcounted _).nearest_mul (short_two_pow _) hlt (two_pow_lt_overflow hT)]
    by_cases hzero : ∀ c ∈ fraction.drop countedDigits, c = '0'
    · rw [counted_eq_units hy hvalue hlow hzero, ofUnits_mul _ (Nat.two_pow_pos _),
        nearest_units hy hfinite]
      exact iff_of_true rfl ⟨hlt, hzero⟩
    · obtain ⟨t, hproduct, hless⟩ := counted_lt_units hf hy hvalue hlow hzero
      refine iff_of_false (fun heq => ?_) fun h => hzero h.2
      have hunits := unitsOf_lt_overflow hfinite
      obtain ⟨-, hnearest⟩ := (hcounted.mul_two_pow t).magnitude_nearest
        (Nat.lt_trans hless hunits)
      rw [hproduct, ofUnits_mul _ (Nat.two_pow_pos _)] at heq
      rw [heq] at hnearest
      exact Nat.ne_of_gt hless hnearest
  · refine iff_of_false (fun heq => ?_) fun h => hlt h.1
    rw [nearest_of_overflow (Nat.le_of_not_lt hlt), infinity_mul (unsigned_nearest _)
      (isNaN_nearest _), hpzero] at heq
    exact Nat.lt_irrefl _ (heq ▸ hfinite)

/-- A power of two that is infinite makes nothing finite. -/
theorem mul_twoPow_of_ge {x : Double} (hx : x.Unsigned) (hnan : x.isNaN = false) (hn : 1024 ≤ n) :
    x * twoPow n = if x.isZero then nan else infinity := by
  rw [twoPow, if_pos hn, Double.mul_comm, infinity_mul hx hnan]

/-- A power of two that is zero makes everything finite zero. -/
theorem mul_twoPow_of_le {x : Double} (hx : x.Unsigned) (hnan : x.isNaN = false) (hn : n ≤ -1024) :
    x * twoPow n = if x = infinity then nan else zero := by
  have hlt : ¬ 1024 ≤ n := by omega
  rw [twoPow, if_neg hlt, if_pos hn]
  rcases finite_or_infinity hx hnan with hfinite | rfl
  · have hne : x ≠ infinity := fun h => Nat.lt_irrefl _ (h ▸ hfinite)
    have hzero : x.units * zero.units = 0 * unitsPerOne := by
      rw [Nat.zero_mul]
      exact Nat.mul_zero _
    rw [if_neg hne, mul_of_finite (y := zero) hx rfl hfinite (by decide), hzero,
      ofUnits_mul 0 unitsPerOne_pos, nearest_zero]
  · rw [if_pos rfl]
    rfl

theorem isZero_iff {x : Double} (hx : x.Unsigned) : x.isZero = true ↔ x = zero :=
  ⟨fun h => eq_of_magnitude hx rfl (eq_of_beq h), fun h => h ▸ rfl⟩

/-- Zero is written with digits that are zero. -/
theorem hexSum_of_value_zero (hi : ∀ c ∈ integer, isHexDigit c = true)
    (hf : ∀ c ∈ fraction, isHexDigit c = true) (h : hexadecimal integer fraction n = 0) :
    hexSum integer fraction = zero := by
  rw [hexadecimal_eq] at h
  have hdigits : digitsValue 16 (integer ++ fraction) = 0 := by
    have hpow : (2 : ℚ) ^ n ≠ 0 := zpow_ne_zero n two_ne_zero
    have hsixteen : (16 : ℚ) ^ fraction.length ≠ 0 := pow_ne_zero _ (by decide)
    rcases mul_eq_zero.1 h with h | h
    · exact_mod_cast (div_eq_zero_iff.1 h).resolve_right hsixteen
    · exact absurd h hpow
  have hcounted : digitsValue 16 (counted integer fraction) = 0 := by
    refine digitsValue_eq_zero_iff.2 fun c hc => digitsValue_eq_zero_iff.1 hdigits c ?_
    rw [counted] at hc
    exact (List.mem_append.1 hc).elim (List.mem_append_left _)
      fun hc => List.mem_append_right _ (List.mem_of_mem_take hc)
  rw [hexSum_eq hi hf (hdigits ▸ short_of_lt (by decide)), hcounted, Nat.zero_mul, nearest_zero]

/-- What the sum of the digits and the power of two cannot make a number of. -/
theorem isNaN_hexSum_mul_iff (hf : ∀ c ∈ fraction, isHexDigit c = true) (n : Int) :
    (hexSum integer fraction * twoPow n).isNaN = true ↔
      1024 ≤ n ∧ hexSum integer fraction = zero ∨
        n ≤ -1024 ∧ hexSum integer fraction = infinity := by
  have hx := unsigned_hexSum integer fraction
  have hnan := isNaN_hexSum integer hf
  generalize hexSum integer fraction = x at hx hnan
  rcases lt_or_ge n 1024 with hhigh | hhigh
  · have hge : ¬ 1024 ≤ n := by omega
    rcases lt_or_ge (-1024) n with hlow | hlow
    · have hle : ¬ n ≤ -1024 := by omega
      obtain ⟨hfinite, -, hzero⟩ := nearest_two_pow (s := (unitExponent + n).toNat) (by omega)
      rw [← twoPow_eq hlow hhigh] at hfinite hzero
      simp [isNaN_mul hx (unsigned_twoPow n) hnan hfinite hzero, hge, hle]
    · rw [mul_twoPow_of_le hx hnan hlow]
      split
      · next h => simp [h, hlow, show nan.isNaN = true from rfl]
      · next h => simp [h, hge, show zero.isNaN = false from rfl]
  · have hle : ¬ n ≤ -1024 := by omega
    rw [mul_twoPow_of_ge hx hnan hhigh]
    split
    · next h => simp [(isZero_iff hx).1 h, hhigh, show nan.isNaN = true from rfl]
    · next h => simp [mt (isZero_iff hx).2 h, hle, show infinity.isNaN = false from rfl]

/-- A well-formed hexadecimal numeral has a value. It is no number where a sum of zero meets an
infinite power of two, or an infinite sum a power that is zero. Of a double that the numeral
writes it is this double if and only if the power of two is a number other than zero, the digits
before the point make less than 2¹⁰²⁴, and behind the point the digits that do not count are zero;
or if the double is zero and so is the power. -/
theorem value?_hexadecimal {numeral : String} (h : IsHexadecimal numeral integer fraction n) :
    ∃ x, value? numeral = some x ∧
      (x.isNaN = true ↔ 1024 ≤ n ∧ hexSum integer fraction = zero ∨
        n ≤ -1024 ∧ hexSum integer fraction = infinity) ∧
      ∀ y : Double, y.isFinite = true → y.negative = false →
        y.value = hexadecimal integer fraction n →
        (x = y ↔ (-1024 < n ∧ n < 1024 ∧ digitsValue 16 integer < 2 ^ 1024 ∧
          ∀ c ∈ fraction.drop countedDigits, c = '0') ∨ n ≤ -1024 ∧ y = zero) := by
  refine ⟨_, value?_eq_hexSum_mul h, isNaN_hexSum_mul_iff h.fraction n, fun y hyf hy hvalue => ?_⟩
  have hx := unsigned_hexSum integer fraction
  have hnan := isNaN_hexSum integer h.fraction
  have hfinite : y.magnitude < infiniteMagnitude := of_decide_eq_true hyf
  have hne : ∀ z : Double, infiniteMagnitude ≤ z.magnitude → z ≠ y := fun z hz heq =>
    Nat.not_lt.2 hz (heq ▸ hfinite)
  rcases lt_or_ge n 1024 with hhigh | hhigh
  · rcases lt_or_ge (-1024) n with hlow | hlow
    · have hle : ¬ n ≤ -1024 := by omega
      rw [hexSum_mul_eq_iff h.integer h.fraction hy hfinite hvalue hlow hhigh]
      simp only [hlow, hhigh, hle, true_and, false_and, or_false]
    · have hgt : ¬ -1024 < n := by omega
      simp only [hgt, hlow, true_and, false_and, false_or]
      rw [mul_twoPow_of_le hx hnan hlow]
      constructor
      · intro heq
        split at heq
        · exact absurd heq (hne nan (by decide))
        · exact heq.symm
      · rintro rfl
        have hzero : hexadecimal integer fraction n = 0 := by
          rw [← hvalue, value_eq_units hy]
          simp [show zero.units = 0 from rfl]
        rw [hexSum_of_value_zero h.integer h.fraction hzero, if_neg (by decide)]
  · have hlt : ¬ n < 1024 := by omega
    have hle : ¬ n ≤ -1024 := by omega
    simp only [hlt, hle, false_and, and_false, or_false, iff_false]
    rw [mul_twoPow_of_ge hx hnan hhigh]
    split
    · exact hne nan (by decide)
    · exact hne infinity (by decide)

theorem isHexadecimal_subnormal : IsHexadecimal "0x.8p-1022" [] ['8'] (-1022) where
  text := ⟨'x', _, _, rfl, .inl rfl, .point (.inr (List.cons_ne_nil _ _)),
    @IsHexScale.exponent 'p' ['-'] ['1', '0', '2', '2'] (.inl rfl) (.inr (.inr rfl))
      (List.cons_ne_nil _ _) (List.all_eq_true.1 rfl)⟩
  integer := nofun
  fraction := List.all_eq_true.1 rfl

/-- The double of which a number of units is the exact value. -/
theorem value_two_pow {s : Nat} (hs : s < unitExponent + 1024) :
    (nearest (2 ^ s)).value = 2 ^ s / 2 ^ unitExponent := by
  rw [value_eq_units (unsigned_nearest _), (nearest_two_pow hs).2.1]
  push_cast
  rfl

theorem value?_hexadecimal_subnormal :
    IsHexadecimal "0x.8p-1022" [] ['8'] (-1022) ∧
      (nearest (2 ^ 51)).value = hexadecimal [] ['8'] (-1022) ∧
      value? "0x.8p-1022" = some (nearest (2 ^ 51)) := by
  have hvalue : (nearest (2 ^ 51)).value = hexadecimal [] ['8'] (-1022) := by
    have hhalf : (8 : ℚ) / 16 ^ 1 = 2 ^ (-1 : ℤ) := by norm_num
    have hdigits : ((digitsValue 16 ([] ++ ['8']) : Nat) : ℚ) = 8 := rfl
    rw [value_two_pow (by omega), hexadecimal_eq, hdigits, unitExponent_eq, List.length_singleton,
      hhalf, ← zpow_add₀ two_ne_zero, ← zpow_natCast, ← zpow_natCast, ← zpow_sub₀ two_ne_zero]
    rfl
  obtain ⟨x, hx, -, hexact⟩ := value?_hexadecimal isHexadecimal_subnormal
  refine ⟨isHexadecimal_subnormal, hvalue, hx.trans (congrArg some ?_)⟩
  have hbehind : ['8'].drop countedDigits = [] := rfl
  refine (hexact _ (by decide) rfl hvalue).2 (.inl ⟨by decide, by decide, ?_, ?_⟩)
  · exact Nat.two_pow_pos 1024
  · rw [hbehind]
    exact nofun

/-- Zero times a power of two may be no number, and the least positive double zero. -/
theorem value?_hexadecimal_inexact :
    (IsHexadecimal "0x0p1024" ['0'] [] 1024 ∧ zero.value = hexadecimal ['0'] [] 1024 ∧
      value? "0x0p1024" = some nan) ∧
    (IsHexadecimal "0x1p-1074" ['1'] [] (-1074) ∧
      (nearest (2 ^ 0)).value = hexadecimal ['1'] [] (-1074) ∧
      value? "0x1p-1074" = some zero ∧ nearest (2 ^ 0) ≠ zero) := by
  refine ⟨⟨⟨?_, List.all_eq_true.1 rfl, nofun⟩, ?_, by decide +kernel⟩,
    ⟨?_, List.all_eq_true.1 rfl, nofun⟩, ?_, by decide +kernel, by decide +kernel⟩
  · exact ⟨'x', _, _, rfl, .inl rfl, .integer (List.cons_ne_nil _ _),
      @IsHexScale.exponent 'p' [] ['1', '0', '2', '4'] (.inl rfl) (.inl rfl)
        (List.cons_ne_nil _ _) (List.all_eq_true.1 rfl)⟩
  · rw [value_eq_units (y := zero) rfl, hexadecimal_eq]
    simp [show zero.units = 0 from rfl, show digitsValue 16 ['0'] = 0 from rfl]
  · exact ⟨'x', _, _, rfl, .inl rfl, .integer (List.cons_ne_nil _ _),
      @IsHexScale.exponent 'p' ['-'] ['1', '0', '7', '4'] (.inl rfl) (.inr (.inr rfl))
        (List.cons_ne_nil _ _) (List.all_eq_true.1 rfl)⟩
  · have hdigits : ((digitsValue 16 (['1'] ++ []) : Nat) : ℚ) = 1 := rfl
    rw [value_two_pow (by omega), hexadecimal_eq, hdigits, unitExponent_eq, List.length_nil,
      pow_zero, pow_zero, div_one, one_mul, one_div, ← zpow_natCast, ← zpow_neg]
    rfl

end Exact

end Numeral

end LuaSource
