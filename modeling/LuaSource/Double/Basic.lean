-- SUMMARY: Double-precision numbers: their exact values, rounding, and arithmetic.

/-!
# Double-precision numbers

A number in the binary64 format is a sign and a magnitude, the latter being its bit
pattern below the sign bit. Greater patterns stand for greater values, up to infinity and,
beyond it, the patterns that stand for no number.

Every finite value is a whole number of units of 2⁻¹⁰⁷⁴, the least positive value. All
arithmetic is done on these whole numbers and then rounded once.
-/

namespace LuaSource

/-- The sign bit of a pattern, which is above all bits of a magnitude. -/
def Double.signBit : Nat := 0x8000000000000000

/-- The leading bit of a significand, which a pattern does not hold. The bits below it are the
fraction, those from it up to the sign bit the exponent. -/
def Double.hiddenBit : Nat := 0x10000000000000

structure Double where
  negative : Bool
  magnitude : Nat
  magnitude_lt : magnitude < Double.signBit := by decide
deriving DecidableEq

namespace Double

def infiniteMagnitude : Nat := 2047 * hiddenBit

def zero : Double := { negative := false, magnitude := 0 }

def infinity : Double := { negative := false, magnitude := infiniteMagnitude }

def nan : Double := { negative := false, magnitude := infiniteMagnitude + hiddenBit / 2 }

def isNaN (x : Double) : Bool := infiniteMagnitude < x.magnitude

def isInfinite (x : Double) : Bool := x.magnitude == infiniteMagnitude

def isFinite (x : Double) : Bool := x.magnitude < infiniteMagnitude

def isZero (x : Double) : Bool := x.magnitude == 0

def neg (x : Double) : Double := { x with negative := !x.negative }

def abs (x : Double) : Double := { x with negative := false }

@[simp] theorem neg_neg (x : Double) : x.neg.neg = x := by
  simp [neg]


-- ---------------------------------------------------------------------------
-- Bit patterns
-- ---------------------------------------------------------------------------

/-- The number with a pattern of 64 bits. -/
def ofBits (bits : Nat) : Double where
  negative := bits / signBit % 2 == 1
  magnitude := bits % signBit
  magnitude_lt := Nat.mod_lt _ (by decide)

def toBits (x : Double) : Nat := (if x.negative then signBit else 0) + x.magnitude

theorem ofBits_toBits (x : Double) : ofBits x.toBits = x := by
  obtain ⟨s, m, h⟩ := x
  have low : m / signBit = 0 := Nat.div_eq_of_lt h
  have high : (signBit + m) / signBit = 1 := by
    rw [Nat.add_div_left m (by decide), low]
  cases s
  · simp [toBits, ofBits, low, Nat.mod_eq_of_lt h]
  · simp [toBits, ofBits, high, Nat.add_mod_left, Nat.mod_eq_of_lt h]


-- ---------------------------------------------------------------------------
-- Exact values
-- ---------------------------------------------------------------------------

/-- How many units a finite magnitude is. -/
def unitsOf (magnitude : Nat) : Nat :=
  if magnitude < hiddenBit then magnitude
  else (magnitude % hiddenBit + hiddenBit) * Nat.pow 2 (magnitude / hiddenBit - 1)

def units (x : Double) : Nat := unitsOf x.magnitude

/-- The value in units, with its sign. -/
def signedUnits (x : Double) : Int := if x.negative then -x.units else x.units

/-- How many units make one. -/
def unitsPerOne : Nat := Nat.pow 2 1074


-- ---------------------------------------------------------------------------
-- Rounding
-- ---------------------------------------------------------------------------

/-- The whole number nearest to a quotient, the even one of two. -/
def roundHalfEven (num den : Nat) : Nat :=
  let q := num / den
  let r := num % den
  if den < 2 * r ∨ (den = 2 * r ∧ q % 2 = 1) then q + 1 else q

/-- The magnitude nearest to `num / den` units. A significand has 53 binary digits, so that
all digits above the 53rd move into the exponent; rounding up over a power of two carries into the
exponent by itself. -/
def nearestMagnitude (num den : Nat) : Nat :=
  let shift := Nat.log2 (num / den) - 52
  min infiniteMagnitude (shift * hiddenBit + roundHalfEven num (den * Nat.pow 2 shift))

theorem nearestMagnitude_le (num den : Nat) : nearestMagnitude num den ≤ infiniteMagnitude :=
  Nat.min_le_left ..

theorem nearestMagnitude_lt (num den : Nat) : nearestMagnitude num den < signBit :=
  Nat.lt_of_le_of_lt (nearestMagnitude_le num den) (by decide)

/-- The number nearest to `num / den` units. -/
def ofUnits (negative : Bool) (num den : Nat) : Double :=
  ⟨negative, nearestMagnitude num den, nearestMagnitude_lt num den⟩

/-- The number nearest to a quotient. -/
def ofRatio (num den : Nat) : Double := ofUnits false (num * unitsPerOne) den

def ofNat (n : Nat) : Double := ofRatio n 1

theorem isNaN_ofUnits (negative : Bool) (num den : Nat) :
    (ofUnits negative num den).isNaN = false :=
  decide_eq_false (Nat.not_lt.2 (nearestMagnitude_le num den))


-- ---------------------------------------------------------------------------
-- Arithmetic
-- ---------------------------------------------------------------------------

def add (x y : Double) : Double :=
  if x.isNaN || y.isNaN then nan
  else if x.isInfinite then
    if y.isInfinite && x.negative != y.negative then nan else x
  else if y.isInfinite then y
  else
    let sum := x.signedUnits + y.signedUnits
    let negative := if sum = 0 then x.negative && y.negative else decide (sum < 0)
    ofUnits negative sum.natAbs 1

/-- Infinity times zero is no number. -/
def mul (x y : Double) : Double :=
  let negative := x.negative != y.negative
  if x.isNaN || y.isNaN then nan
  else if x.isInfinite || y.isInfinite then
    if x.isZero || y.isZero then nan else { infinity with negative }
  else ofUnits negative (x.units * y.units) unitsPerOne

instance : Add Double := ⟨add⟩
instance : Mul Double := ⟨mul⟩

/-- A power of two. One that is below the reciprocal of a finite power is zero. -/
def twoPow (n : Int) : Double :=
  if 1024 ≤ n then infinity
  else if n ≤ -1024 then zero
  else if 0 ≤ n then ofRatio (Nat.pow 2 n.toNat) 1
  else ofRatio 1 (Nat.pow 2 (-n).toNat)

end Double

end LuaSource
