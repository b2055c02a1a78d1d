-- SUMMARY: Decimals, the doubles nearest to them, and the shortest one that is read as a double.
import LuaSource.Double.Basic

/-!
# Decimals

A decimal is a whole number times a power of ten.

On a grid of decimals with one exponent, the candidates for a number are its two
neighbours. The coarsest grid on which one of them is read as the number gives the fewest
digits; of two such neighbours the nearer one is taken, and the upper one if they are
equally near.
-/

namespace LuaSource

structure Decimal where
  digits : Nat
  exponent : Int
deriving DecidableEq

/-- The double nearest to a decimal. An exponent so great or so small that it alone decides is
not made into a power of ten first. -/
def Double.ofDecimal (d : Decimal) : Double :=
  if 0 ≤ d.exponent then
    if d.digits ≠ 0 ∧ 309 ≤ d.exponent then infinity
    else if d.digits = 0 then zero
    else ofRatio (d.digits * Nat.pow 10 d.exponent.toNat) 1
  else if Nat.log2 d.digits + 1076 ≤ 3 * (-d.exponent).toNat then zero
  else ofRatio d.digits (Nat.pow 10 (-d.exponent).toNat)

namespace Decimal

/-- Without an exponent: `1`, `0.025`, `1500`. -/
def positional (d : Decimal) : List Char :=
  let ds := Nat.toDigits 10 d.digits
  if 0 ≤ d.exponent then ds ++ List.replicate d.exponent.toNat '0'
  else
    let places := (-d.exponent).toNat
    if places < ds.length then
      ds.take (ds.length - places) ++ '.' :: ds.drop (ds.length - places)
    else '0' :: '.' :: (List.replicate (places - ds.length) '0' ++ ds)

/-- One digit before the point, and the point only if a digit follows it: `1e300`, `2.5e-7`. -/
def scientific (d : Decimal) : List Char :=
  match Nat.toDigits 10 d.digits with
  | [] => []
  | c :: cs =>
    let fraction := if cs.isEmpty then [] else '.' :: cs
    c :: (fraction ++ 'e' :: (toString (d.exponent + cs.length)).toList)

end Decimal


-- ---------------------------------------------------------------------------
-- Shortest decimals
-- ---------------------------------------------------------------------------

namespace Double

/-- Whether a decimal is read as a number, signs aside. -/
def readsBack (x : Double) (d : Decimal) : Bool := (ofDecimal d).magnitude == x.magnitude

/-- The decimal with a given exponent that is read as a number, if there is one. -/
def onGrid? (x : Double) (exponent : Int) : Option Decimal :=
  let num := x.units * Nat.pow 10 (-exponent).toNat
  let den := unitsPerOne * Nat.pow 10 exponent.toNat
  let below : Decimal := ⟨num / den, exponent⟩
  let above : Decimal := ⟨num / den + 1, exponent⟩
  if x.readsBack above && (!x.readsBack below || den ≤ 2 * (num % den)) then some above
  else if x.readsBack below then some below
  else none

/-- An exponent whose power of ten is above a number: of `n + 1` binary digits, it is below 2ⁿ⁺¹,
and 0.30103 is the decimal logarithm of two. -/
def topExponent (x : Double) : Int := ((Nat.log2 x.units : Int) - 1073) * 30103 / 100000 + 1

/-- The exact value as a decimal: a unit is 5¹⁰⁷⁴ · 10⁻¹⁰⁷⁴. -/
def exactDecimal (x : Double) : Decimal := ⟨x.units * Nat.pow 5 1074, -1074⟩

/-- Seventeen digits tell any two doubles apart, so that a grid is found among the first twenty. -/
def shortest (x : Double) : Decimal :=
  if x.isZero then ⟨0, 0⟩
  else
    let grids := (List.range 20).map fun (i : Nat) => x.topExponent - i
    (grids.findSome? x.onGrid?).getD x.exactDecimal

theorem readsBack_of_onGrid? {x : Double} {e : Int} {d : Decimal} (h : x.onGrid? e = some d) :
    x.readsBack d = true := by
  simp only [onGrid?] at h
  split at h
  · next hc =>
    cases h
    exact (Bool.and_eq_true_iff.1 hc).1
  · split at h
    · cases h
      assumption
    · cases h

end Double

end LuaSource
