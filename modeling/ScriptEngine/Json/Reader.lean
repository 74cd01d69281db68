import ScriptEngine.Json.Basic
import ScriptEngine.Number.Reader

/-!
# Reading JSON

The reader accepts one JSON value with white space around it. In strict reading the nesting is
limited, escapes of surrogates come in pairs, and numerals are within the range of numbers. Values
that nobody looks at can be skipped: then only their grammar counts.

A numeral with a point or an exponent, or too large for sixty-four bits, is rounded in steps: as
many leading digits as fit in sixty-four bits become a number, which is then multiplied or divided
by a power of ten.
-/

namespace ScriptEngine.Json

inductive ReadMode where
  /-- The value matters; fewer than `limit` arrays and objects may be nested. -/
  | strict (limit : Nat)
  /-- The value is skipped. -/
  | skip
deriving DecidableEq, Repr

namespace ReadMode

def inner? : ReadMode → Option ReadMode
  | .strict limit => if limit ≤ 1 then none else some (.strict (limit - 1))
  | .skip => some .skip

def isStrict : ReadMode → Bool
  | .strict _ => true
  | .skip => false

end ReadMode

def dropSpace (cs : List Char) : List Char :=
  cs.dropWhile fun c => c = ' ' ∨ c = '\t' ∨ c = '\n' ∨ c = '\r'

/-! ## Numerals -/

/-- Leading digits as far as they fit in sixty-four bits, and how many more there are. -/
def wholeDigits (digits : List Char) : Nat × Nat :=
  let (significand, dropped) := digits.foldl
    (fun (s, dropped) c =>
      let next := 10 * s + (c.toNat - '0'.toNat)
      if dropped = 0 ∧ next < Nat.pow 2 64 then (next, 0) else (s, dropped + 1))
    (0, 0)
  (significand, dropped)

/-- Further digits as far as they fit in sixty-four bits, and how many of them were taken. -/
def fractionDigits (significand : Nat) (digits : List Char) : Nat × Nat :=
  let (significand, taken, _) := digits.foldl
    (fun (s, taken, full) c =>
      let next := 10 * s + (c.toNat - '0'.toNat)
      if !full && next < Nat.pow 2 64 then (next, taken + 1, false) else (s, taken, true))
    (significand, 0, false)
  (significand, taken)

def powerOfTen (n : Nat) : Number := .ofNat (Nat.pow 10 n)

/-- Multiplies or divides a number by a power of ten, at most three hundred and eight places at a
time. The result is none if it would be infinite. -/
def scaleByTen (steps : Nat) (x : Number) (exponent : Int) : Option Number :=
  match steps with
  | 0 => some x
  | steps + 1 =>
    if exponent.natAbs ≤ 308 then
      if 0 ≤ exponent then
        let product := x.mulFinite (powerOfTen exponent.natAbs)
        if product.isInfinite then none else some product
      else some (x.divFinite (powerOfTen exponent.natAbs))
    else if x.isZero then some x
    else if 0 ≤ exponent then none
    else scaleByTen steps (x.divFinite (powerOfTen 308)) (exponent + 308)

/-- The number for a significand and an exponent; three steps take every significand to zero. -/
def ofParts? (negative : Bool) (significand : Nat) (exponent : Int) : Option Number :=
  (scaleByTen 4 (.ofNat significand) exponent).map fun x => if negative then x.negate else x

/-- The numeral with the given whole digits, fraction digits and exponent. -/
def numeral? (negative : Bool) (whole : List Char) (fraction : Option (List Char))
    (exponent : Option Int) : Option Numeral :=
  let (significand, dropped) := wholeDigits whole
  if fraction.isNone ∧ exponent.isNone ∧ dropped = 0 then
    if !negative then some (.natural significand)
    else if significand = 0 ∨ Nat.pow 2 63 < significand then
      some (.real (Number.ofNat significand).negate)
    else some (.negative significand)
  else
    let (significand, taken) := fractionDigits significand (fraction.getD [])
    (ofParts? negative significand (dropped - taken + exponent.getD 0)).map .real

/-- The fraction after a numeral's whole digits, if there is one; it has at least one digit. -/
def readFraction? : List Char → Option (Option (List Char) × List Char)
  | '.' :: rest =>
    let digits := rest.takeWhile Char.isDigit
    if digits.isEmpty then none else some (some digits, rest.dropWhile Char.isDigit)
  | rest => some (none, rest)

/-- The exponent at the end of a numeral, if there is one; it has at least one digit. -/
def readExponentPart? : List Char → Option (Option Int × List Char)
  | [] => some (none, [])
  | mark :: rest =>
    if mark = 'e' ∨ mark = 'E' then
      let (negative, rest) := match rest with
        | '-' :: r => (true, r)
        | '+' :: r => (false, r)
        | r => (false, r)
      let digits := rest.takeWhile Char.isDigit
      if digits.isEmpty then none
      else
        let n : Int := Number.digitsValue digits
        some (some (if negative then -n else n), rest.dropWhile Char.isDigit)
    else some (none, mark :: rest)

def readNumeral? (mode : ReadMode) (cs : List Char) : Option (Numeral × List Char) := do
  let (negative, cs) := match cs with
    | '-' :: r => (true, r)
    | r => (false, r)
  let whole := cs.takeWhile Char.isDigit
  if whole.isEmpty ∨ (whole.head? = some '0' ∧ whole.length ≠ 1) then none
  let (fraction, cs) ← readFraction? (cs.dropWhile Char.isDigit)
  let (exponent, cs) ← readExponentPart? cs
  if mode.isStrict then return (← numeral? negative whole fraction exponent, cs)
  else return (.natural 0, cs)

/-! ## Strings -/

def hexDigit? (c : Char) : Option Nat :=
  if c.isDigit then some (c.toNat - '0'.toNat)
  else if 'a' ≤ c ∧ c ≤ 'f' then some (c.toNat - 'a'.toNat + 10)
  else if 'A' ≤ c ∧ c ≤ 'F' then some (c.toNat - 'A'.toNat + 10)
  else none

def hexUnit? (a b c d : Char) : Option Nat := do
  return ((← hexDigit? a) * 16 + (← hexDigit? b)) * 256 + (← hexDigit? c) * 16 + (← hexDigit? d)

def simpleEscape? : Char → Option Char
  | '"' => some '"'
  | '\\' => some '\\'
  | '/' => some '/'
  | 'b' => some '\x08'
  | 'f' => some '\x0c'
  | 'n' => some '\n'
  | 'r' => some '\r'
  | 't' => some '\t'
  | _ => none

def surrogatePair? (high low : Nat) : Option Char :=
  if 0xdc00 ≤ low ∧ low ≤ 0xdfff then
    some (Char.ofNat (0x10000 + (high - 0xd800) * 0x400 + (low - 0xdc00)))
  else none

/-- Reads a string up to its closing quote. The characters come before `acc`, in reverse order. -/
def readStringFrom? (mode : ReadMode) (acc : List Char) : List Char → Option (String × List Char)
  | [] => none
  | '"' :: rest => some (String.ofList acc.reverse, rest)
  | '\\' :: 'u' :: a :: b :: c :: d :: rest =>
    match hexUnit? a b c d with
    | none => none
    | some unit =>
      if 0xd800 ≤ unit ∧ unit ≤ 0xdfff ∧ mode.isStrict then
        match rest with
        | '\\' :: 'u' :: e :: f :: g :: h :: rest =>
          match (hexUnit? e f g h).bind (surrogatePair? unit) with
          | some char =>
            if unit ≤ 0xdbff then readStringFrom? mode (char :: acc) rest else none
          | none => none
        | _ => none
      else readStringFrom? mode (Char.ofNat unit :: acc) rest
  | '\\' :: c :: rest =>
    match simpleEscape? c with
    | some char => readStringFrom? mode (char :: acc) rest
    | none => none
  | c :: rest =>
    if c.toNat < 0x20 ∨ c = '\\' then none else readStringFrom? mode (c :: acc) rest

/-! ## Values -/

def dropWord? (word : String) (cs : List Char) : Option (List Char) :=
  let w := word.toList
  if w.isPrefixOf cs then some (cs.drop w.length) else none

mutual

/-- Reads a value. Every step takes a character or goes on to a part of the value, so twice the
length of the text is enough fuel. -/
def readValue? : Nat → ReadMode → List Char → Option (Json × List Char)
  | 0, _, _ => none
  | fuel + 1, mode, cs =>
    match dropSpace cs with
    | '"' :: rest => (readStringFrom? mode [] rest).map fun (s, rest) => (.string s, rest)
    | '[' :: rest => do
      let mode ← mode.inner?
      match dropSpace rest with
      | ']' :: rest => some (.array [], rest)
      | rest => readItems? fuel mode [] rest
    | '\x7b' :: rest => do
      let mode ← mode.inner?
      match dropSpace rest with
      | '\x7d' :: rest => some (.object [], rest)
      | rest => readMembers? fuel mode (fun _ => mode) [] rest
    | 'n' :: rest => (dropWord? "ull" rest).map (.null, ·)
    | 't' :: rest => (dropWord? "rue" rest).map (.bool true, ·)
    | 'f' :: rest => (dropWord? "alse" rest).map (.bool false, ·)
    | rest => (readNumeral? mode rest).map fun (n, rest) => (.number n, rest)

def readItems? : Nat → ReadMode → List Json → List Char → Option (Json × List Char)
  | 0, _, _, _ => none
  | fuel + 1, mode, acc, cs => do
    let (item, rest) ← readValue? fuel mode cs
    match dropSpace rest with
    | ',' :: rest => readItems? fuel mode (item :: acc) rest
    | ']' :: rest => some (.array (item :: acc).reverse, rest)
    | _ => none

/-- Reads the members of an object up to its end. Names are read in the mode `keys`, and the name of
a member says how its value is read. -/
def readMembers? : Nat → ReadMode → (String → ReadMode) → List (String × Json) → List Char →
    Option (Json × List Char)
  | 0, _, _, _, _ => none
  | fuel + 1, keys, mode, acc, cs =>
    match dropSpace cs with
    | '"' :: rest => do
      let (name, rest) ← readStringFrom? keys [] rest
      match dropSpace rest with
      | ':' :: rest =>
        let (value, rest) ← readValue? fuel (mode name) rest
        match dropSpace rest with
        | ',' :: rest => readMembers? fuel keys mode ((name, value) :: acc) rest
        | '\x7d' :: rest => some (.object ((name, value) :: acc).reverse, rest)
        | _ => none
      | _ => none
    | _ => none

end

def onlyValue? (result : Option (Json × List Char)) : Option Json :=
  match result with
  | some (value, rest) => if (dropSpace rest).isEmpty then some value else none
  | none => none

def read? (limit : Nat) (text : String) : Option Json :=
  let cs := text.toList
  onlyValue? (readValue? (2 * cs.length + 2) (.strict limit) cs)

/-- Reads a text that is one record of which only the named fields matter: the values of other
members are skipped. -/
def readRecord? (limit : Nat) (names : List String) (text : String) : Option Json :=
  let cs := text.toList
  let fuel := 2 * cs.length + 2
  match dropSpace cs with
  | '\x7b' :: rest =>
    match dropSpace rest with
    | '\x7d' :: rest => onlyValue? (some (.object [], rest))
    | rest =>
      let inner := ReadMode.strict (limit - 1)
      let mode := fun name => if name ∈ names then inner else .skip
      onlyValue? (readMembers? fuel inner mode [] rest)
  | _ => onlyValue? (readValue? fuel (.strict limit) cs)

end ScriptEngine.Json
