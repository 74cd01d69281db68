import ScriptEngine.Number.Shortest

/-!
# Texts of numbers

Numbers are written with the fewest digits that read back. Two layouts are in use: plain positional
notation in tree listings, and a debugging notation that always shows a fraction or an exponent.
-/

namespace ScriptEngine

namespace Decimal

/-- Positional notation with at least `places` digits after the point; no point if there are none.
-/
def positional (d : Decimal) (places : Nat) : String :=
  let ds := Nat.toDigits 10 d.digits
  let (whole, fraction) :=
    if 0 ≤ d.exponent then (ds ++ List.replicate d.exponent.toNat '0', [])
    else
      let n := (-d.exponent).toNat
      if n < ds.length then (ds.take (ds.length - n), ds.drop (ds.length - n))
      else (['0'], List.replicate (n - ds.length) '0' ++ ds)
  let fraction := fraction ++ List.replicate (places - fraction.length) '0'
  String.ofList (if fraction.isEmpty then whole else whole ++ '.' :: fraction)

/-- Scientific notation: one digit, the others after a point, and the exponent after the mark. -/
def scientific (d : Decimal) : String :=
  let ds := Nat.toDigits 10 d.digits
  let exponent := d.exponent + (ds.length - 1 : Nat)
  let tail := if ds.length ≤ 1 then [] else '.' :: ds.drop 1
  String.ofList (ds.take 1 ++ tail) ++ "e" ++ toString exponent

end Decimal

namespace Number

/-- A text for the magnitude of a finite number that is not zero, with the sign and the texts of
the other data put around it. -/
def textWith (zeroText : String) (f : Decimal → String) (x : Number) : String :=
  if x.isNaN then "NaN"
  else
    let sign := if x.negative then "-" else ""
    if x.isInfinite then sign ++ "inf"
    else if x.isZero then sign ++ zeroText
    else sign ++ f x.shortest.normal

/-- Positional notation without a trailing fraction, as tree listings have it. -/
def plainText : Number → String := textWith "0" (·.positional 0)

/-- Debugging notation: positional from `10 ^ -4` up to below `10 ^ 16`, with at least one digit
after the point, and scientific elsewhere. -/
def debugText : Number → String :=
  textWith "0.0" fun d =>
    let top := d.exponent + (Nat.toDigits 10 d.digits).length
    if -3 ≤ top ∧ top ≤ 16 then d.positional 1 else d.scientific

/-- The script text of a number. Integral numbers below `10 ^ 21` are written as integers of
sixty-four bits, so that those outside that range read as its bounds. -/
def display (x : Number) : String :=
  if x.isNaN then "NaN"
  else if x.isInfinite then (if x.negative then "-Infinity" else "Infinity")
  else if x.isIntegral && x.magnitudeLt (Nat.pow 10 21) then
    toString (max (-Int.pow 2 63) (min (Int.pow 2 63 - 1) x.truncate))
  else x.plainText

end Number

end ScriptEngine
