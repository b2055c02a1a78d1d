-- SUMMARY: How far a numeral reaches, what it stands for, and how numbers are written.
import LuaSource.Double.Decimal
import LuaSource.Text.CharClass

/-!
# Numerals

A numeral goes on for as long as it could be one, and then over all name characters that
stick to it. Whether it is well formed is decided when its value is asked for.

A decimal numeral stands for the double nearest to it. A hexadecimal one is summed up digit
by digit in double precision and then scaled by a power of two. Where a numeral is not well
formed it has no value.

A number is written with the fewest digits that are read as it again: without an exponent
from 0.00001 up to 10¹⁶, and with one elsewhere. Numbers that no numeral writes are written
as expressions with their value.
-/

namespace LuaSource.Numeral

-- ---------------------------------------------------------------------------
-- Extent
-- ---------------------------------------------------------------------------

/-- Whether a text begins a numeral in base sixteen. -/
def isHex (cs : List Char) : Bool :=
  cs.head? == some '0' && (cs[1]? == some 'x' || cs[1]? == some 'X')

/-- The part of a numeral that is being read. -/
inductive Part
  | integer
  | fraction
  /-- The exponent mark was read just now, and a sign may follow. -/
  | mark
  | exponent
deriving DecidableEq

def isExponentMark (hex : Bool) (c : Char) : Bool :=
  if hex then c == 'p' || c == 'P' else c == 'e' || c == 'E'

def isMantissaDigit (hex : Bool) (c : Char) : Bool :=
  if hex then isHexDigit c else c.isDigit

/-- The part that a character belongs to, if it can go on with the numeral. Digits of an exponent
are decimal in either base. -/
def Part.next? (hex : Bool) : Part → Char → Option Part
  | integer, c =>
    if isExponentMark hex c then some mark
    else if c = '.' then some fraction
    else if isMantissaDigit hex c then some integer
    else none
  | fraction, c =>
    if isExponentMark hex c then some mark
    else if isMantissaDigit hex c then some fraction
    else none
  | mark, c => if c = '+' ∨ c = '-' ∨ c.isDigit then some exponent else none
  | exponent, c => if c.isDigit then some exponent else none

/-- How many characters go on with a numeral of which `n` were read up to some part. -/
def runSize (hex : Bool) (part : Part) (n : Nat) : List Char → Nat
  | [] => n
  | c :: cs =>
    match part.next? hex c with
    | some part => runSize hex part (n + 1) cs
    | none => n

/-- How many characters the numeral at the head of a text takes up. -/
def size (cs : List Char) : Nat :=
  let n := if isHex cs then runSize true .integer 2 (cs.drop 2) else runSize false .integer 0 cs
  n + ((cs.drop n).takeWhile isNameContinue).length


-- ---------------------------------------------------------------------------
-- Parts of numerals
-- ---------------------------------------------------------------------------

/-- The text before the first character of a kind, and the text behind it if there is one. -/
def splitAtFirst (p : Char → Bool) (cs : List Char) : List Char × Option (List Char) :=
  let before := cs.takeWhile (!p ·)
  match cs.drop before.length with
  | [] => (before, none)
  | _ :: behind => (before, some behind)

/-- Whether a text starts with a minus sign, and the text behind its sign if it has one. -/
def splitSign : List Char → Bool × List Char
  | [] => (false, [])
  | c :: cs => if c = '-' then (true, cs) else if c = '+' then (false, cs) else (false, c :: cs)

/-- An exponent: decimal digits, which one sign may precede. -/
def exponent? (cs : List Char) : Option Int :=
  let (negative, digits) := splitSign cs
  if digits.isEmpty || !digits.all Char.isDigit then none
  else
    let n := digitsValue 10 digits
    some (if negative then -n else n)


-- ---------------------------------------------------------------------------
-- Decimal numerals
-- ---------------------------------------------------------------------------

/-- Digits with at most one point among or beside them. -/
def mantissa? (isDigit : Char → Bool) (cs : List Char) : Option (List Char × List Char) :=
  let (integer, behind) := splitAtFirst (· == '.') cs
  let fraction := behind.getD []
  if integer.isEmpty && fraction.isEmpty then none
  else if integer.all isDigit && fraction.all isDigit then some (integer, fraction)
  else none

/-- The decimal that digits with an optional point and an optional exponent write. -/
def decimal? (cs : List Char) : Option Decimal := do
  let (mantissa, behind) := splitAtFirst (fun c => c == 'e' || c == 'E') cs
  let (integer, fraction) ← mantissa? Char.isDigit mantissa
  let exponent ← match behind with
    | some cs => exponent? cs
    | none => some 0
  return ⟨digitsValue 10 (integer ++ fraction), exponent - fraction.length⟩

/-- The words that stand for numbers without digits, in letters of either case. -/
def word? (cs : List Char) : Option Double :=
  match String.ofList (cs.map Char.toLower) with
  | "inf" | "infinity" => some Double.infinity
  | "nan" => some Double.nan
  | _ => none

def decimalValue? (cs : List Char) : Option Double :=
  let (negative, cs) := splitSign cs
  let x := (word? cs).or ((decimal? cs).map Double.ofDecimal)
  if negative then x.map Double.neg else x


-- ---------------------------------------------------------------------------
-- Hexadecimal numerals
-- ---------------------------------------------------------------------------

def sixteen : Double := Double.ofNat 16

def sixteenth : Double := Double.ofRatio 1 16

def integerValue (digits : List Char) : Double :=
  digits.foldl (fun x c => x * sixteen + Double.ofNat (digitValue c)) Double.zero

/-- Add the digits behind the point, the first of which counts `scale` times. -/
def addFraction (x scale : Double) : List Char → Double
  | [] => x
  | c :: cs => addFraction (x + Double.ofNat (digitValue c) * scale) (scale * sixteenth) cs

/-- Exponents beyond this bound make any number zero or infinite. -/
def exponentBound : Nat := 4096

def clampExponent (n : Int) : Int := max (-exponentBound) (min exponentBound n)

/-- The value of a hexadecimal numeral, from behind its `0x`. -/
def hexValue? (cs : List Char) : Option Double := do
  let (mantissa, behind) := splitAtFirst (fun c => c == 'p' || c == 'P') cs
  let (integer, fraction) ← mantissa? isHexDigit mantissa
  let x := addFraction (integerValue integer) sixteenth fraction
  match behind with
  | some cs => return x * Double.twoPow (clampExponent (← exponent? cs))
  | none => return x


-- ---------------------------------------------------------------------------
-- Either base
-- ---------------------------------------------------------------------------

/-- The value of a numeral in either base, if it is well formed. -/
def value? (numeral : String) : Option Double :=
  match numeral.toList with
  | '0' :: 'x' :: cs => hexValue? cs
  | '0' :: 'X' :: cs => hexValue? cs
  | cs => decimalValue? cs


-- ---------------------------------------------------------------------------
-- Writing numbers
-- ---------------------------------------------------------------------------

/-- Where numbers begin to be written without an exponent. -/
def positionalFrom : Double := Double.ofDecimal ⟨1, -5⟩

/-- Where numbers begin to be written with an exponent again. -/
def positionalBelow : Double := Double.ofDecimal ⟨1, 16⟩

def isPositional (x : Double) : Bool :=
  x.isZero ||
    (positionalFrom.magnitude ≤ x.magnitude && x.magnitude < positionalBelow.magnitude)

/-- A number that is not negative, and not a quotient without a value. -/
def writeMagnitude (x : Double) : List Char :=
  if x.isInfinite then "1e999".toList
  else if isPositional x then x.shortest.positional
  else x.shortest.scientific

def write (x : Double) : List Char :=
  if x.isNaN then "(0 / 0)".toList
  else if x.negative then '-' :: writeMagnitude x
  else writeMagnitude x

end LuaSource.Numeral
