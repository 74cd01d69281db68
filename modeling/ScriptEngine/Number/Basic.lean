/-!
# Script numbers

A script number is an IEEE 754 binary64 datum. It is kept as its 64 bits, so that two patterns of
NaN and the two zeros stay apart wherever numbers are stored, and all arithmetic is exact
arithmetic on natural numbers followed by one rounding (`Number.round`): to the nearest number, a
tie to the even one.

A finite number is `mantissa · 2 ^ scale`, negated if `negative` holds.
-/

namespace ScriptEngine

/-- An IEEE 754 binary64 datum, kept as its bits. -/
structure Number where
  bits : UInt64
deriving DecidableEq, Repr, Inhabited

namespace Number

/-! ## Parts -/

def negative (x : Number) : Bool := Nat.pow 2 63 ≤ x.bits.toNat

/-- The bits below the sign: eleven of exponent, then fifty-two of fraction. -/
def magnitudeBits (x : Number) : Nat := x.bits.toNat % Nat.pow 2 63

def exponentBits (x : Number) : Nat := x.magnitudeBits / Nat.pow 2 52

def fractionBits (x : Number) : Nat := x.magnitudeBits % Nat.pow 2 52

def isNaN (x : Number) : Bool := x.exponentBits == 2047 && x.fractionBits != 0

def isInfinite (x : Number) : Bool := x.exponentBits == 2047 && x.fractionBits == 0

def isFinite (x : Number) : Bool := x.exponentBits != 2047

def isZero (x : Number) : Bool := x.magnitudeBits == 0

/-- The integral factor of a finite number. -/
def mantissa (x : Number) : Nat :=
  if x.exponentBits = 0 then x.fractionBits else Nat.pow 2 52 + x.fractionBits

/-- The exponent of the factor two of a finite number. -/
def scale (x : Number) : Int := (max x.exponentBits 1 : Nat) - 1075

/-! ## Making numbers -/

/-- The datum with the given sign and the given bits below it. -/
def ofMagnitudeBits (negative : Bool) (m : Nat) : Number :=
  ⟨UInt64.ofNat ((if negative then Nat.pow 2 63 else 0) + m)⟩

def nan : Number := ofMagnitudeBits false (2047 * Nat.pow 2 52 + Nat.pow 2 51)

def infinity (negative : Bool) : Number := ofMagnitudeBits negative (2047 * Nat.pow 2 52)

def zero (negative : Bool) : Number := ofMagnitudeBits negative 0

/-- A quotient rounded to the nearest natural number, a tie to the even one. -/
def divNearest (num den : Nat) : Nat :=
  let q := num / den
  let twice := 2 * (num % den)
  if twice < den then q
  else if den < twice then q + 1
  else if q % 2 = 0 then q else q + 1

def scaledFloor (num den : Nat) (e : Int) : Nat :=
  if 0 ≤ e then num / (den * Nat.pow 2 e.toNat) else num * Nat.pow 2 (-e).toNat / den

/-- `num / den / 2 ^ e`, rounded to the nearest natural number. -/
def scaledNearest (num den : Nat) (e : Int) : Nat :=
  if 0 ≤ e then divNearest num (den * Nat.pow 2 e.toNat)
  else divNearest (num * Nat.pow 2 (-e).toNat) den

/-- The scale at which `num / den` has a mantissa of fifty-three bits, or the least scale there is.
-/
def roundingScale (num den : Nat) : Int :=
  let e : Int := max ((num.log2 : Int) - den.log2 - 52) (-1074)
  if -1074 < e ∧ scaledFloor num den e < Nat.pow 2 52 then e - 1 else e

/-- The number nearest to `num / den`, of two the one with the even mantissa. A quotient beyond the
largest number by half a unit or more becomes infinite. -/
def round (negative : Bool) (num den : Nat) : Number :=
  if num = 0 then zero negative
  else
    let e := roundingScale num den
    let m := (e + 1074).toNat * Nat.pow 2 52 + scaledNearest num den e
    if 2047 * Nat.pow 2 52 ≤ m then infinity negative else ofMagnitudeBits negative m

def ofNat (n : Nat) : Number := round false n 1

def ofInt (z : Int) : Number := round (z < 0) z.natAbs 1

/-! ## Exact values -/

/-- The magnitude of a finite number as a quotient of natural numbers. -/
def ratio (x : Number) : Nat × Nat :=
  if 0 ≤ x.scale then (x.mantissa * Nat.pow 2 x.scale.toNat, 1)
  else (x.mantissa, Nat.pow 2 (-x.scale).toNat)

def isIntegral (x : Number) : Bool := x.isFinite && x.ratio.1 % x.ratio.2 == 0

/-- The integral part of a finite number: what is left when the fraction is cut off. -/
def truncate (x : Number) : Int :=
  let n : Int := (x.ratio.1 / x.ratio.2 : Nat)
  if x.negative then -n else n

/-- Whether a finite number is smaller in magnitude than `n`. -/
def magnitudeLt (x : Number) (n : Nat) : Bool := x.ratio.1 < n * x.ratio.2

/-! ## Comparison and arithmetic -/

/-- Equality of numbers: NaN differs from everything and the two zeros are equal. -/
def equals (x y : Number) : Bool :=
  !x.isNaN && !y.isNaN && (x == y || x.isZero && y.isZero)

def negate (x : Number) : Number := ofMagnitudeBits (!x.negative) x.magnitudeBits

/-- The signed mantissa of a finite number at a scale not above its own. -/
def mantissaAt (x : Number) (e : Int) : Int :=
  let n : Int := (x.mantissa * Nat.pow 2 (x.scale - e).toNat : Nat)
  if x.negative then -n else n

/-- The sum of two finite numbers. A sum of zero is negative only if both numbers are. -/
def addFinite (x y : Number) : Number :=
  let e := min x.scale y.scale
  let sum := x.mantissaAt e + y.mantissaAt e
  if sum = 0 then zero (x.negative && y.negative)
  else if 0 ≤ e then round (sum < 0) (sum.natAbs * Nat.pow 2 e.toNat) 1
  else round (sum < 0) sum.natAbs (Nat.pow 2 (-e).toNat)

def add (x y : Number) : Number :=
  if x.isNaN || y.isNaN then nan
  else if x.isInfinite then
    if y.isInfinite && x.negative != y.negative then nan else x
  else if y.isInfinite then y
  else addFinite x y

def mulFinite (x y : Number) : Number :=
  round (x.negative != y.negative) (x.ratio.1 * y.ratio.1) (x.ratio.2 * y.ratio.2)

/-- The quotient of a finite number by a finite number that is not zero. -/
def divFinite (x y : Number) : Number :=
  round (x.negative != y.negative) (x.ratio.1 * y.ratio.2) (x.ratio.2 * y.ratio.1)

/-! ## Words -/

/-- The integral part modulo `2 ^ 32`; zero for what is not finite. -/
def toUInt32 (x : Number) : Nat :=
  if x.isFinite then (x.truncate % Int.pow 2 32).toNat else 0

/-- The sixteen hexadecimal digits of the bits, most significant first. -/
def hexDigits (x : Number) : String :=
  let ds := Nat.toDigits 16 x.bits.toNat
  String.ofList (List.replicate (16 - ds.length) '0' ++ ds)

end Number

end ScriptEngine
