-- SUMMARY: Sums and products are exact where the exact result has few digits and is not too great.
import LuaSource.Double.Basic
import LuaSource.Proofs.Numeral.Written

/-!
# Exact arithmetic

A number of units is that of a finite double if its binary digits, from the first that is not zero
to the last, are few enough and it is not too great. On such numbers the operations lose nothing.
-/

namespace LuaSource.Double

variable {a b n k : Nat} {x y : Double}

/-! ## Few digits -/

/-- From the first to the last binary digit that is not zero there are 53 at most. -/
def Short (n : Nat) : Prop := ∃ k s, k < 2 * hiddenBit ∧ n = k * 2 ^ s

theorem short_of_lt (h : n < 2 * hiddenBit) : Short n := ⟨n, 0, h, (Nat.mul_one n).symm⟩

theorem short_two_pow (s : Nat) : Short (2 ^ s) := ⟨1, s, by decide, (Nat.one_mul _).symm⟩

theorem Short.mul_two_pow (h : Short n) (t : Nat) : Short (n * 2 ^ t) := by
  obtain ⟨k, s, hk, rfl⟩ := h
  exact ⟨k, s + t, hk, by rw [Nat.mul_assoc, ← Nat.pow_add]⟩

/-- The leading digits of a number are no more than its digits. -/
theorem Short.div_two_pow (h : Short n) (t : Nat) : Short (n / 2 ^ t) := by
  obtain ⟨k, s, hk, rfl⟩ := h
  by_cases hle : t ≤ s
  · obtain ⟨d, rfl⟩ := Nat.exists_eq_add_of_le hle
    refine ⟨k, d, hk, ?_⟩
    rw [Nat.pow_add, Nat.mul_left_comm, Nat.mul_div_cancel_left _ (Nat.two_pow_pos t)]
  · obtain ⟨d, rfl⟩ := Nat.exists_eq_add_of_le (Nat.le_of_not_le hle)
    rw [Nat.pow_add, Nat.mul_comm (2 ^ s), Nat.mul_div_mul_right _ _ (Nat.two_pow_pos s)]
    exact short_of_lt (Nat.lt_of_le_of_lt (Nat.div_le_self _ _) hk)

theorem Short.of_mul_two_pow {t : Nat} (h : Short (n * 2 ^ t)) : Short n := by
  have hdiv := h.div_two_pow t
  rwa [Nat.mul_div_cancel _ (Nat.two_pow_pos t)] at hdiv

/-! ## Finite magnitudes -/

/-- The binary digits of a finite double behind the point. -/
@[irreducible] def unitExponent : Nat := 1074

theorem unitExponent_eq : unitExponent = 1074 := by
  rw [unitExponent]

theorem unitsPerOne_eq : unitsPerOne = 2 ^ unitExponent := by
  rw [unitsPerOne, ← unitExponent_eq]
  rfl

theorem unitsPerOne_pos : 0 < unitsPerOne := by
  rw [unitsPerOne_eq]
  exact Nat.two_pow_pos _

/-- The least power of two that is too great for a finite double, in units. -/
def overflow : Nat := 2 ^ (unitExponent + 1024)

theorem two_pow_le_overflow {s : Nat} (hs : s ≤ unitExponent + 1024) : 2 ^ s ≤ overflow :=
  Nat.pow_le_pow_right Nat.two_pos hs

theorem two_pow_lt_overflow {s : Nat} (hs : s < unitExponent + 1024) : 2 ^ s < overflow :=
  Nat.pow_lt_pow_right (by decide) hs

theorem overflow_le_two_pow {s : Nat} (hs : unitExponent + 1024 ≤ s) : overflow ≤ 2 ^ s :=
  Nat.pow_le_pow_right Nat.two_pos hs

theorem ne_zero_of_overflow (h : overflow ≤ n) : n ≠ 0 :=
  Nat.ne_of_gt (Nat.lt_of_lt_of_le (Nat.two_pow_pos _) h)

theorem short_unitsOf (m : Nat) : Short (unitsOf m) := by
  rw [unitsOf]
  split
  · next hlt => exact short_of_lt (Nat.lt_of_lt_of_le hlt (by decide))
  · refine ⟨m % hiddenBit + hiddenBit, m / hiddenBit - 1, ?_, rfl⟩
    have hmod : m % hiddenBit < hiddenBit := Nat.mod_lt _ (by decide)
    omega

theorem unitsOf_lt_overflow {m : Nat} (hm : m < infiniteMagnitude) : unitsOf m < overflow := by
  have hbit : hiddenBit = 2 ^ 52 := rfl
  rw [unitsOf]
  split
  · next hlt =>
    have hle : 2 ^ 52 ≤ overflow := two_pow_le_overflow (by rw [unitExponent_eq]; omega)
    exact Nat.lt_of_lt_of_le hlt hle
  · have hmod : m % hiddenBit < hiddenBit := Nat.mod_lt _ (by decide)
    have hdiv : m / hiddenBit < 2047 := (Nat.div_lt_iff_lt_mul (by decide)).2 hm
    generalize hs : m / hiddenBit - 1 = s
    calc (m % hiddenBit + hiddenBit) * Nat.pow 2 s
        < 2 ^ 53 * 2 ^ s := Nat.mul_lt_mul_of_pos_right (by omega) (Nat.two_pow_pos s)
      _ = 2 ^ (53 + s) := (Nat.pow_add 2 53 s).symm
      _ ≤ overflow := two_pow_le_overflow (by rw [unitExponent_eq]; omega)

/-- A number with few digits that is not too great belongs to a finite double. -/
theorem Short.exists_unitsOf (h : Short n) (hlt : n < overflow) :
    ∃ m, m < infiniteMagnitude ∧ unitsOf m = n := by
  by_cases hsmall : n < hiddenBit
  · exact ⟨n, Nat.lt_trans hsmall (by decide), if_pos hsmall⟩
  have hbit : hiddenBit = 2 ^ 52 := rfl
  have hn : n ≠ 0 := fun hn => hsmall (hn ▸ by decide)
  -- The digits from the 53rd on are zero.
  obtain ⟨s, hs⟩ : ∃ s, Nat.log2 n = 52 + s :=
    Nat.exists_eq_add_of_le ((Nat.le_log2 hn).2 (hbit ▸ Nat.le_of_not_lt hsmall))
  obtain ⟨hlow, hhigh⟩ := (Nat.log2_eq_iff hn).1 hs
  obtain ⟨q, rfl⟩ : ∃ q, n = q * 2 ^ s := by
    obtain ⟨k, t, hk, rfl⟩ := h
    by_cases hst : s ≤ t
    · obtain ⟨d, rfl⟩ := Nat.exists_eq_add_of_le hst
      exact ⟨k * 2 ^ d, by rw [Nat.pow_add, Nat.mul_assoc, Nat.mul_comm (2 ^ s)]⟩
    · have hts : 2 ^ (t + 1) ≤ 2 ^ s := Nat.pow_le_pow_right (by decide) (by omega)
      have hgreat : k * 2 ^ t < 2 ^ (52 + s) :=
        calc k * 2 ^ t < 2 * hiddenBit * 2 ^ t := Nat.mul_lt_mul_of_pos_right hk (Nat.two_pow_pos t)
          _ = hiddenBit * 2 ^ (t + 1) := by rw [Nat.pow_succ]; ac_rfl
          _ ≤ hiddenBit * 2 ^ s := Nat.mul_le_mul_left _ hts
          _ = 2 ^ (52 + s) := by rw [Nat.pow_add, hbit]
      exact absurd hlow (Nat.not_le.2 hgreat)
  rw [Nat.pow_add, ← hbit] at hlow
  have hqlow : hiddenBit ≤ q := Nat.le_of_mul_le_mul_right hlow (Nat.two_pow_pos s)
  have hqhigh : q < 2 * hiddenBit := by
    have hpow : 2 ^ (52 + s + 1) = 2 * hiddenBit * 2 ^ s := by
      rw [hbit, Nat.pow_succ, Nat.pow_add]
      ac_rfl
    rw [hpow] at hhigh
    exact Nat.lt_of_mul_lt_mul_right hhigh
  have hexponent : s ≤ 2045 := by
    refine Nat.le_of_not_lt fun hgreat => ?_
    have hpow : overflow ≤ 2 ^ (52 + s) := overflow_le_two_pow (by rw [unitExponent_eq]; omega)
    rw [Nat.pow_add, ← hbit] at hpow
    exact absurd hlt (Nat.not_lt.2 (Nat.le_trans hpow hlow))
  obtain ⟨f, rfl⟩ := Nat.exists_eq_add_of_le hqlow
  have hf : f < hiddenBit := by omega
  have hdiv : ((s + 1) * hiddenBit + f) / hiddenBit = s + 1 := by
    rw [Nat.add_comm, Nat.add_mul_div_right _ _ (by decide), Nat.div_eq_of_lt hf, Nat.zero_add]
  have hmod : ((s + 1) * hiddenBit + f) % hiddenBit = f := by
    rw [Nat.add_comm, Nat.add_mul_mod_self_right, Nat.mod_eq_of_lt hf]
  refine ⟨(s + 1) * hiddenBit + f, ?_, ?_⟩
  · have : (s + 1) * hiddenBit ≤ 2046 * hiddenBit := Nat.mul_le_mul_right _ (by omega)
    rw [infiniteMagnitude]
    omega
  · have hge : ¬ (s + 1) * hiddenBit + f < hiddenBit := by
      rw [Nat.succ_mul]
      omega
    rw [unitsOf, if_neg hge, hdiv, hmod, Nat.add_comm f]
    rfl

/-! ## Rounding -/

theorem roundHalfEven_mul_right (num den : Nat) {c : Nat} (hc : 0 < c) :
    roundHalfEven (num * c) (den * c) = roundHalfEven num den := by
  have hmod : 2 * (num * c % (den * c)) = 2 * (num % den) * c := by
    rw [Nat.mul_mod_mul_right, Nat.mul_assoc]
  have hlt : den * c < 2 * (num % den) * c ↔ den < 2 * (num % den) := Nat.mul_lt_mul_right hc
  have heq : den * c = 2 * (num % den) * c ↔ den = 2 * (num % den) := Nat.mul_right_cancel_iff hc
  simp only [roundHalfEven, hmod, hlt, heq, Nat.mul_div_mul_right _ _ hc]

/-- Rounding depends on the quotient alone. -/
theorem nearestMagnitude_mul_right (num den : Nat) {c : Nat} (hc : 0 < c) :
    nearestMagnitude (num * c) (den * c) = nearestMagnitude num den := by
  simp only [nearestMagnitude, Nat.mul_div_mul_right _ _ hc, Nat.mul_right_comm den c,
    roundHalfEven_mul_right _ _ hc]

theorem le_roundHalfEven (num den : Nat) : num / den ≤ roundHalfEven num den := by
  simp only [roundHalfEven]
  split
  · exact Nat.le_succ _
  · exact Nat.le_refl _

theorem nearestMagnitude_of_overflow (h : overflow ≤ n) :
    nearestMagnitude n 1 = infiniteMagnitude := by
  have hn := ne_zero_of_overflow h
  have hlog : unitExponent + 1024 ≤ Nat.log2 n := (Nat.le_log2 hn).2 h
  rw [unitExponent_eq] at hlog
  obtain ⟨s, hs⟩ : ∃ s, Nat.log2 n = 2098 + s := Nat.exists_eq_add_of_le hlog
  have hshift : Nat.log2 (n / 1) - 52 = 2046 + s := by
    rw [Nat.div_one, hs]
    omega
  have hdigits : hiddenBit ≤ n / 2 ^ (2046 + s) := by
    rw [Nat.le_div_iff_mul_le (Nat.two_pow_pos _), show hiddenBit = 2 ^ 52 from rfl, ← Nat.pow_add,
      show 52 + (2046 + s) = 2098 + s by omega]
    exact ((Nat.log2_eq_iff hn).1 hs).1
  have hround := Nat.le_trans hdigits (le_roundHalfEven n (2 ^ (2046 + s)))
  rw [nearestMagnitude, hshift, Nat.pow_eq, Nat.one_mul]
  refine Nat.min_eq_left ?_
  rw [infiniteMagnitude]
  have hexponent : 2046 * hiddenBit ≤ (2046 + s) * hiddenBit :=
    Nat.mul_le_mul_right _ (Nat.le_add_right _ _)
  omega

/-! ## The nearest double -/

/-- The double nearest to a number of units. -/
def nearest (n : Nat) : Double := ofUnits false n 1

theorem ofUnits_mul (n : Nat) {den : Nat} (hden : 0 < den) :
    ofUnits false (n * den) den = nearest n := by
  refine eq_of_magnitude rfl rfl ?_
  have h := nearestMagnitude_mul_right n 1 hden
  rwa [Nat.one_mul] at h

theorem ofNat_eq_nearest (n : Nat) : ofNat n = nearest (n * 2 ^ unitExponent) := by
  rw [← unitsPerOne_eq]
  rfl

theorem nearest_of_overflow (h : overflow ≤ n) : nearest n = infinity :=
  eq_of_magnitude rfl rfl (nearestMagnitude_of_overflow h)

theorem Short.magnitude_nearest (h : Short n) (hlt : n < overflow) :
    (nearest n).magnitude < infiniteMagnitude ∧ (nearest n).units = n := by
  obtain ⟨m, hm, rfl⟩ := h.exists_unitsOf hlt
  have hmagnitude : (nearest (unitsOf m)).magnitude = m := by
    have heq := nearestMagnitude_unitsOf_mul hm Nat.one_pos
    rwa [Nat.mul_one] at heq
  refine ⟨?_, ?_⟩
  · rw [hmagnitude]
    exact hm
  · rw [units, hmagnitude]

theorem nearest_units (hx : x.Unsigned) (hfinite : x.magnitude < infiniteMagnitude) :
    nearest x.units = x := by
  refine eq_of_magnitude rfl hx ?_
  have heq := nearestMagnitude_unitsOf_mul hfinite Nat.one_pos
  rwa [Nat.mul_one] at heq

theorem unsigned_nearest (n : Nat) : (nearest n).Unsigned := rfl

theorem isNaN_nearest (n : Nat) : (nearest n).isNaN = false := isNaN_ofUnits false n 1

theorem nearest_zero : nearest 0 = zero := nearest_units (x := zero) rfl (by decide)

/-! ## Operations -/

theorem isNaN_of_finite (h : x.magnitude < infiniteMagnitude) : x.isNaN = false :=
  decide_eq_false (Nat.not_lt.2 (Nat.le_of_lt h))

theorem isInfinite_of_finite (h : x.magnitude < infiniteMagnitude) : x.isInfinite = false :=
  beq_false_of_ne (Nat.ne_of_lt h)

theorem finite_or_infinity (hx : x.Unsigned) (hnan : x.isNaN = false) :
    x.magnitude < infiniteMagnitude ∨ x = infinity := by
  have hle : x.magnitude ≤ infiniteMagnitude := Nat.not_lt.1 (of_decide_eq_false hnan)
  exact (Nat.lt_or_eq_of_le hle).imp_right fun heq => eq_of_magnitude hx rfl heq

theorem add_of_finite (hx : x.Unsigned) (hy : y.Unsigned) (hxf : x.magnitude < infiniteMagnitude)
    (hyf : y.magnitude < infiniteMagnitude) : x + y = nearest (x.units + y.units) := by
  have hsum : x.signedUnits + y.signedUnits = ((x.units + y.units : Nat) : Int) := by
    rw [signedUnits, signedUnits, show x.negative = false from hx,
      show y.negative = false from hy]
    exact (Int.natCast_add _ _).symm
  have hsign : (if (x.units + y.units : Nat) = (0 : Int) then x.negative && y.negative
      else decide (((x.units + y.units : Nat) : Int) < 0)) = false := by
    rw [show x.negative = false from hx]
    split
    · rfl
    · exact decide_eq_false (Int.not_lt.2 (Int.natCast_nonneg _))
  show add x y = _
  rw [add, isNaN_of_finite hxf, isNaN_of_finite hyf, isInfinite_of_finite hxf,
    isInfinite_of_finite hyf]
  dsimp only [Bool.or_self, Bool.false_eq_true, if_false]
  rw [hsum, hsign, Int.natAbs_natCast]
  rfl

theorem infinity_add (hy : y.Unsigned) (hnan : y.isNaN = false) : infinity + y = infinity := by
  have hsign : (infinity.negative != y.negative) = false := by
    rw [show y.negative = false from hy]
    rfl
  show add infinity y = _
  rw [add, hnan, hsign, Bool.and_false]
  rfl

theorem add_infinity (hx : x.magnitude < infiniteMagnitude) : x + infinity = infinity := by
  show add x infinity = _
  rw [add, isNaN_of_finite hx, isInfinite_of_finite hx]
  rfl

theorem add_zero (hx : x.Unsigned) (hnan : x.isNaN = false) : x + zero = x := by
  rcases finite_or_infinity hx hnan with hfinite | rfl
  · rw [add_of_finite (y := zero) hx rfl hfinite (by decide)]
    exact nearest_units hx hfinite
  · exact infinity_add (y := zero) rfl rfl

theorem mul_of_finite (hx : x.Unsigned) (hy : y.Unsigned) (hxf : x.magnitude < infiniteMagnitude)
    (hyf : y.magnitude < infiniteMagnitude) :
    x * y = ofUnits false (x.units * y.units) unitsPerOne := by
  have hsign : (x.negative != y.negative) = false := by
    rw [show x.negative = false from hx, show y.negative = false from hy]
    rfl
  show mul x y = _
  rw [mul, isNaN_of_finite hxf, isNaN_of_finite hyf, isInfinite_of_finite hxf,
    isInfinite_of_finite hyf, hsign]
  rfl

/-- An infinite factor leaves nothing of the other but whether it is zero. -/
theorem infinity_mul (hy : y.Unsigned) (hnan : y.isNaN = false) :
    infinity * y = if y.isZero then nan else infinity := by
  have hsign : (infinity.negative != y.negative) = false := by
    rw [show y.negative = false from hy]
    rfl
  show mul infinity y = _
  rw [mul, hnan, hsign]
  rfl

theorem mul_comm (x y : Double) : x * y = y * x := by
  show mul x y = mul y x
  simp only [mul, Bool.or_comm x.isNaN, Bool.or_comm x.isInfinite, Bool.or_comm x.isZero,
    Nat.mul_comm x.units, bne_comm (a := x.negative)]

/-- A sum of numbers with few digits is rounded once. -/
theorem Short.nearest_add (ha : Short a) (hb : Short b) :
    nearest a + nearest b = nearest (a + b) := by
  by_cases hao : overflow ≤ a
  · rw [nearest_of_overflow hao, nearest_of_overflow (Nat.le_trans hao (Nat.le_add_right a b)),
      infinity_add (unsigned_nearest b) (isNaN_nearest b)]
  obtain ⟨hxf, hx⟩ := ha.magnitude_nearest (Nat.lt_of_not_le hao)
  by_cases hbo : overflow ≤ b
  · rw [nearest_of_overflow hbo, nearest_of_overflow (Nat.le_trans hbo (Nat.le_add_left b a)),
      add_infinity hxf]
  obtain ⟨hyf, hy⟩ := hb.magnitude_nearest (Nat.lt_of_not_le hbo)
  rw [add_of_finite (unsigned_nearest a) (unsigned_nearest b) hxf hyf, hx, hy]

/-- So is a product. -/
theorem Short.nearest_mul (ha : Short a) (hb : Short b) (hao : a < overflow) (hbo : b < overflow) :
    nearest a * nearest b = ofUnits false (a * b) (2 ^ unitExponent) := by
  obtain ⟨hxf, hx⟩ := ha.magnitude_nearest hao
  obtain ⟨hyf, hy⟩ := hb.magnitude_nearest hbo
  rw [mul_of_finite (unsigned_nearest a) (unsigned_nearest b) hxf hyf, hx, hy, unitsPerOne_eq]

/-! ## Powers of two -/

theorem nearest_two_pow {s : Nat} (hs : s < unitExponent + 1024) :
    (nearest (2 ^ s)).magnitude < infiniteMagnitude ∧ (nearest (2 ^ s)).units = 2 ^ s ∧
      (nearest (2 ^ s)).isZero = false := by
  obtain ⟨hfinite, hunits⟩ := (short_two_pow s).magnitude_nearest (two_pow_lt_overflow hs)
  refine ⟨hfinite, hunits, beq_false_of_ne fun hzero => ?_⟩
  rw [units, hzero] at hunits
  exact absurd hunits.symm (Nat.ne_of_gt (Nat.two_pow_pos s))

theorem twoPow_natCast {n : Nat} (hn : n < 1024) : twoPow n = nearest (2 ^ (unitExponent + n)) := by
  have hle : ¬ (1024 : Int) ≤ n := by omega
  have hneg : ¬ (n : Int) ≤ -1024 := by omega
  rw [twoPow, if_neg hle, if_neg hneg, if_pos (Int.natCast_nonneg n), Int.toNat_natCast, ofRatio,
    nearest, unitsPerOne_eq, Nat.pow_eq, ← Nat.pow_add, Nat.add_comm]

theorem twoPow_neg_natCast {n : Nat} (hn : n < 1024) (hpos : 0 < n) :
    twoPow (-n) = nearest (2 ^ (unitExponent - n)) := by
  have hle : ¬ (1024 : Int) ≤ -n := by omega
  have hneg : ¬ -(n : Int) ≤ -1024 := by omega
  have hnonneg : ¬ (0 : Int) ≤ -n := by omega
  have hpow : 1 * unitsPerOne = 2 ^ (unitExponent - n) * 2 ^ n := by
    rw [unitsPerOne_eq, ← Nat.pow_add, Nat.one_mul, Nat.sub_add_cancel]
    rw [unitExponent_eq]
    omega
  rw [twoPow, if_neg hle, if_neg hneg, if_neg hnonneg, Int.neg_neg, Int.toNat_natCast, ofRatio,
    hpow, Nat.pow_eq, ofUnits_mul _ (Nat.two_pow_pos n)]

/-- The powers of two that are formed without loss. -/
theorem twoPow_eq {n : Int} (hlow : -1024 < n) (hhigh : n < 1024) :
    twoPow n = nearest (2 ^ (unitExponent + n).toNat) := by
  obtain ⟨k, rfl | rfl⟩ := n.eq_nat_or_neg
  · rw [twoPow_natCast (by omega)]
    rfl
  · rcases Nat.eq_zero_or_pos k with rfl | hk
    · exact twoPow_natCast (by decide)
    · rw [twoPow_neg_natCast (by omega) hk]
      congr 2
      omega

theorem mul_twoPow_zero (hx : x.Unsigned) (hnan : x.isNaN = false) : x * twoPow 0 = x := by
  have hone : twoPow 0 = nearest (2 ^ unitExponent) := twoPow_natCast (by decide)
  obtain ⟨hfinite, hunits, hzero⟩ := nearest_two_pow (s := unitExponent) (by omega)
  rw [hone]
  rcases finite_or_infinity hx hnan with hxf | rfl
  · rw [mul_of_finite hx (unsigned_nearest _) hxf hfinite, hunits, unitsPerOne_eq,
      ofUnits_mul _ (Nat.two_pow_pos _), nearest_units hx hxf]
  · rw [infinity_mul (unsigned_nearest _) (isNaN_nearest _), hzero]
    rfl

end LuaSource.Double
