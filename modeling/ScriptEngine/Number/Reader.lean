import ScriptEngine.Number.Basic

/-!
# Reading numbers

`Number.ofDecimal` rounds a decimal to the nearest number. `Number.read?` reads the notation in
which a string can stand for a number: a sign, digits with a point anywhere among them, an exponent;
or the words for infinity and NaN in any case.
-/

namespace ScriptEngine.Number

def digitsValue (cs : List Char) : Nat :=
  cs.foldl (fun n c => 10 * n + (c.toNat - '0'.toNat)) 0

/-- The number nearest to `digits · 10 ^ exponent`. Beyond `10 ^ 400` every decimal is infinite, and
below `10 ^ -400` it is zero, so that no larger power is ever formed. -/
def ofDecimal (negative : Bool) (digits : Nat) (exponent : Int) : Number :=
  let top := (Nat.toDigits 10 digits).length + exponent
  if digits = 0 ∨ top < -400 then zero negative
  else if 400 < top then infinity negative
  else round negative (digits * Nat.pow 10 exponent.toNat) (Nat.pow 10 (-exponent).toNat)

/-- An exponent of ten: a sign or none, then at least one digit, to the end of the text. -/
def readExponent? (cs : List Char) : Option Int :=
  let (negative, ds) := match cs with
    | '-' :: r => (true, r)
    | '+' :: r => (false, r)
    | r => (false, r)
  if ds.isEmpty || !ds.all Char.isDigit then none
  else
    let n : Int := digitsValue ds
    some (if negative then -n else n)

/-- Digits with a point anywhere among them, at least one digit, and perhaps an exponent. -/
def readDecimal? (negative : Bool) (cs : List Char) : Option Number :=
  let whole := cs.takeWhile Char.isDigit
  let rest := cs.dropWhile Char.isDigit
  let (fraction, rest) := match rest with
    | '.' :: r => (r.takeWhile Char.isDigit, r.dropWhile Char.isDigit)
    | r => ([], r)
  if whole.isEmpty && fraction.isEmpty then none
  else
    let digits := digitsValue (whole ++ fraction)
    match rest with
    | [] => some (ofDecimal negative digits (-fraction.length))
    | mark :: r =>
      if mark = 'e' ∨ mark = 'E' then
        (readExponent? r).map fun e => ofDecimal negative digits (e - fraction.length)
      else none

def read? (cs : List Char) : Option Number :=
  let (negative, body) := match cs with
    | '-' :: r => (true, r)
    | '+' :: r => (false, r)
    | r => (false, r)
  let word := String.ofList (body.map Char.toLower)
  if word = "inf" ∨ word = "infinity" then some (infinity negative)
  else if word = "nan" then some nan
  else readDecimal? negative body

end ScriptEngine.Number
