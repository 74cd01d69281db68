import ScriptEngine.Number.Basic

/-!
# The fewest digits that read back

`Number.shortest` gives, for a finite number that is not zero, the decimal with the fewest digits
that rounds to the number, and among those the one nearest to it. The reals that round to a number
form an interval around it, which holds its ends if the mantissa is even. For one digit, two
digits, and so on, the number's two neighbours on the decimal grid of that many digits are tested
against the interval in exact arithmetic; seventeen digits always suffice.
-/

namespace ScriptEngine

/-- A positive decimal `digits · 10 ^ exponent`. -/
structure Decimal where
  digits : Nat
  exponent : Int
deriving DecidableEq, Repr

namespace Number

/-- The reals that round to a number: from `low / den` to `high / den` around `mid / den`, with the
ends or without them. -/
structure RoundingInterval where
  low : Nat
  mid : Nat
  high : Nat
  den : Nat
  closed : Bool

/-- The interval of a finite number. Below a power of two the numbers lie twice as dense. -/
def roundingInterval (x : Number) : RoundingInterval :=
  let m := x.mantissa
  let below := if m = Nat.pow 2 52 ∧ 1 < x.exponentBits then 1 else 2
  let e := x.scale - 2
  let up := Nat.pow 2 e.toNat
  { low := (4 * m - below) * up
    mid := 4 * m * up
    high := (4 * m + 2) * up
    den := Nat.pow 2 (-e).toNat
    closed := m % 2 == 0 }

namespace RoundingInterval

/-- The number of decimal places before the point: the least `p` with `mid / den < 10 ^ p`. -/
def places (i : RoundingInterval) : Int :=
  if i.den ≤ i.mid then (Nat.toDigits 10 (i.mid / i.den)).length
  else 1 - (Nat.toDigits 10 ((i.den - 1) / i.mid)).length

/-- `c · 10 ^ k` as a numerator over `den`, next to the scaled bound it is compared with. -/
def compareTerms (i : RoundingInterval) (bound c : Nat) (k : Int) : Nat × Nat :=
  (c * Nat.pow 10 k.toNat * i.den, bound * Nat.pow 10 (-k).toNat)

def contains (i : RoundingInterval) (c : Nat) (k : Int) : Bool :=
  let (v, low) := i.compareTerms i.low c k
  let (_, high) := i.compareTerms i.high c k
  if i.closed then low ≤ v && v ≤ high else low < v && v < high

/-- The neighbours of the middle on the grid of multiples of `10 ^ k` that lie in the interval; of
two the nearer, and of two equally near the upper. -/
def onGrid (i : RoundingInterval) (k : Int) : Option Decimal :=
  let num := i.mid * Nat.pow 10 (-k).toNat
  let den := i.den * Nat.pow 10 k.toNat
  let c := num / den
  let lower := i.contains c k
  let upper := i.contains (c + 1) k
  if lower && upper then
    some ⟨if 2 * (num % den) < den then c else c + 1, k⟩
  else if lower then some ⟨c, k⟩
  else if upper then some ⟨c + 1, k⟩
  else none

end RoundingInterval

/-- The decimal with the fewest digits that reads back as the number. -/
def shortest (x : Number) : Decimal :=
  let i := x.roundingInterval
  ((List.range 17).findSome? fun n => i.onGrid (i.places - (n + 1 : Nat))).getD ⟨0, 0⟩

end Number

namespace Decimal

def stripZeros (fuel : Nat) (d : Decimal) : Decimal :=
  match fuel with
  | 0 => d
  | fuel + 1 =>
    if d.digits != 0 && d.digits % 10 == 0 then
      stripZeros fuel ⟨d.digits / 10, d.exponent + 1⟩
    else d

def normal (d : Decimal) : Decimal := d.stripZeros (Nat.toDigits 10 d.digits).length

end Decimal

end ScriptEngine
