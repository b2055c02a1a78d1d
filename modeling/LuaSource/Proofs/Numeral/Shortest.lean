-- SUMMARY: A finite number is the one nearest to its exact value, and to the decimal it is written as.
import LuaSource.Double.Decimal
import Mathlib.Algebra.Group.Nat.Defs

/-!
# Decimals that are read back

Rounding keeps what is a number already. So the exact value of a finite number is read as this
number, and each decimal that is chosen for it instead was tried before.
-/

namespace LuaSource.Double

/-! ## Rounding -/

theorem roundHalfEven_mul (n : Nat) {den : Nat} (hden : 0 < den) :
    roundHalfEven (n * den) den = n := by
  rw [roundHalfEven]
  rw [Nat.mul_div_cancel _ hden, Nat.mul_mod_left, if_neg]
  omega

theorem log2_sub_of_lt {n : Nat} (h : n < hiddenBit) : Nat.log2 n - 52 = 0 := by
  by_cases hn : n = 0
  · rw [hn]
    rfl
  · have hlog : Nat.log2 n < 52 := (Nat.log2_lt hn).2 h
    omega

/-- A significand and an exponent are found again in the number of units. -/
theorem log2_significand_mul (f s : Nat) (hf : f < hiddenBit) :
    Nat.log2 ((f + hiddenBit) * 2 ^ s) = 52 + s := by
  have hpow : 0 < 2 ^ s := Nat.two_pow_pos s
  rw [Nat.log2_eq_iff (Nat.mul_ne_zero (by simp [hiddenBit]) (Nat.ne_of_gt hpow))]
  have hbit : hiddenBit = 2 ^ 52 := rfl
  constructor
  · rw [Nat.pow_add, ← hbit]
    exact Nat.mul_le_mul_right _ (Nat.le_add_left _ _)
  · have hexp : 2 ^ (52 + s + 1) = (hiddenBit + hiddenBit) * 2 ^ s := by
      rw [hbit, ← Nat.two_mul, Nat.pow_succ, Nat.pow_add, Nat.mul_right_comm, Nat.mul_comm 2]
    rw [hexp]
    exact Nat.mul_lt_mul_of_pos_right (Nat.add_lt_add_right hf _) hpow

/-- The number nearest to the value of a finite number is this number. -/
theorem nearestMagnitude_unitsOf_mul {m den : Nat} (hm : m < infiniteMagnitude) (hden : 0 < den) :
    nearestMagnitude (unitsOf m * den) den = m := by
  rw [nearestMagnitude]
  rw [Nat.mul_div_cancel _ hden, unitsOf]
  split
  · next hlt =>
    rw [log2_sub_of_lt hlt, Nat.zero_mul, Nat.zero_add, Nat.pow_eq, Nat.pow_zero, Nat.mul_one,
      roundHalfEven_mul m hden]
    exact Nat.min_eq_right (Nat.le_of_lt hm)
  · next hge =>
    have hbit : 0 < hiddenBit := by decide
    have hexponent : 1 ≤ m / hiddenBit := (Nat.one_le_div_iff hbit).2 (Nat.le_of_not_lt hge)
    have hm' : m = m / hiddenBit * hiddenBit + m % hiddenBit := (Nat.div_add_mod' m hiddenBit).symm
    generalize hs : m / hiddenBit - 1 = s
    have hs' : m / hiddenBit = s + 1 := by omega
    rw [Nat.pow_eq, log2_significand_mul _ s (Nat.mod_lt _ hbit), Nat.add_sub_cancel_left,
      Nat.pow_eq, Nat.mul_assoc, Nat.mul_comm (2 ^ s),
      roundHalfEven_mul _ (Nat.mul_pos hden (Nat.two_pow_pos s))]
    have hsum : s * hiddenBit + (m % hiddenBit + hiddenBit) = m := by
      rw [hs', Nat.succ_mul] at hm'
      omega
    rw [hsum]
    exact Nat.min_eq_right (Nat.le_of_lt hm)

/-! ## Decimals -/

theorem units_pos {x : Double} (hx : x.isZero = false) : 0 < x.units := by
  have hm : 0 < x.magnitude := Nat.pos_of_ne_zero (by simpa [isZero] using hx)
  rw [units, unitsOf]
  split
  · exact hm
  · exact Nat.mul_pos (Nat.add_pos_right _ (by decide)) (Nat.two_pow_pos _)

theorem mul_five_pow_mul_two_pow (n k : Nat) :
    n * Nat.pow 5 k * Nat.pow 2 k = n * Nat.pow 10 k := by
  rw [Nat.mul_assoc, Nat.pow_eq, Nat.pow_eq, Nat.pow_eq, ← Nat.mul_pow]

/-- The exact decimal is not so small that it would be taken for zero without a look at it. -/
theorem log2_exactDecimal {x : Double} (hx : x.isZero = false) :
    ¬ Nat.log2 (exactDecimal x).digits + 1076 ≤ 3 * 1074 := by
  have hpow : 2 ^ 2148 ≤ Nat.pow 5 1074 := by decide +kernel
  have hdigits : 2 ^ 2148 ≤ (exactDecimal x).digits :=
    Nat.le_trans hpow (Nat.le_mul_of_pos_left _ (units_pos hx))
  have hlog : 2148 ≤ Nat.log2 (exactDecimal x).digits :=
    (Nat.le_log2 (Nat.ne_of_gt (Nat.lt_of_lt_of_le (Nat.two_pow_pos _) hdigits))).2 hdigits
  omega

theorem readsBack_exactDecimal {x : Double} (hfinite : x.magnitude < infiniteMagnitude)
    (hx : x.isZero = false) : x.readsBack x.exactDecimal = true := by
  have hnegative : ¬ (0 : Int) ≤ (exactDecimal x).exponent := by
    show ¬ (0 : Int) ≤ -1074
    decide
  have hvalue : x.units * Nat.pow 5 1074 * unitsPerOne = x.units * Nat.pow 10 1074 := by
    rw [unitsPerOne, mul_five_pow_mul_two_pow]
  have hexact : (ofDecimal x.exactDecimal).magnitude =
      nearestMagnitude (x.units * Nat.pow 5 1074 * unitsPerOne) (Nat.pow 10 1074) := by
    rw [ofDecimal, if_neg hnegative, if_neg]
    · rfl
    · exact log2_exactDecimal hx
  have hpow : 0 < Nat.pow 10 1074 := Nat.pow_pos (by decide)
  rw [readsBack, hexact, hvalue, units, nearestMagnitude_unitsOf_mul hfinite hpow]
  exact beq_self_eq_true _

theorem readsBack_shortest {x : Double} (hfinite : x.magnitude < infiniteMagnitude) :
    x.readsBack x.shortest = true := by
  rw [shortest]
  split
  · next hzero =>
    rw [readsBack, eq_of_beq hzero]
    rfl
  · next hzero =>
    dsimp only
    cases hgrid : ((List.range 20).map fun (i : Nat) => x.topExponent - i).findSome? x.onGrid? with
    | none => exact readsBack_exactDecimal hfinite (eq_false_of_ne_true hzero)
    | some d =>
      obtain ⟨e, -, he⟩ := List.exists_of_findSome?_eq_some hgrid
      exact readsBack_of_onGrid? he

end LuaSource.Double
