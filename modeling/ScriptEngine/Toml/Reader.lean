import ScriptEngine.Json.Reader
import ScriptEngine.Toml.Basic

/-!
# Reading TOML

A reader takes characters from the front of a text, or fails and leaves the text as it was. Lines
are read first and put together into tables afterwards.
-/

namespace ScriptEngine.Toml

abbrev Reader := StateT (List Char) Option

namespace Reader

/-! ## Characters -/

def satisfy (p : Char → Bool) : Reader Char := fun
  | c :: rest => if p c then some (c, rest) else none
  | [] => none

def char (c : Char) : Reader Unit := discard (satisfy (· = c))

def word (w : String) : Reader Unit := fun cs => (Json.dropWord? w cs).map ((), ·)

/-- All characters up to the first that does not meet a condition. -/
def takeWhile (p : Char → Bool) : Reader (List Char) := fun cs =>
  some (cs.takeWhile p, cs.dropWhile p)

def takeWhile1 (p : Char → Bool) : Reader (List Char) := do
  let cs ← takeWhile p
  if cs.isEmpty then failure else return cs

def atEnd : Reader Unit := fun
  | [] => some ((), [])
  | _ => none

def optional (r : Reader α) : Reader (Option α) := some <$> r <|> pure none

/-- Repeats a reader as often as it succeeds, at most `fuel` times. -/
def repeated (r : Reader α) : Nat → Reader (List α)
  | 0 => pure []
  | fuel + 1 => (do
      let a ← r
      let rest ← repeated r fuel
      return a :: rest) <|> pure []

/-- Repeats a reader that takes at least one character as often as it succeeds. -/
def many (r : Reader α) : Reader (List α) := do repeated r (← get).length

/-! ## White space and comments -/

def space : Reader Unit := discard (takeWhile fun c => c = ' ' || c = '\t')

def newline : Reader Unit := char '\n' <|> word "\r\n"

/-- Characters that may stand in a comment or in a literal string: no controls but the tab. -/
def isPrintable (c : Char) : Bool := c = '\t' || (0x20 ≤ c.toNat && c.toNat ≠ 0x7f)

def comment : Reader Unit := do
  char '#'
  discard (takeWhile isPrintable)

/-- White space, comments and line ends, as between the items of an array. -/
def blanks : Reader Unit :=
  discard (many (discard (satisfy fun c => c = ' ' || c = '\t') <|> newline <|>
    (do comment; newline)))

def lineEnd : Reader Unit := do
  space
  discard (optional comment)
  newline <|> atEnd

/-! ## Strings -/

/-- The scalar value with the given number of hexadecimal digits. -/
def scalar (digits : Nat) : Reader Char := do
  let cs ← (List.range digits).mapM fun _ => satisfy fun c => (Json.hexDigit? c).isSome
  let n := cs.foldl (fun n c => 16 * n + (Json.hexDigit? c).getD 0) 0
  if n < 0xd800 || (0xdfff < n && n < 0x110000) then return Char.ofNat n else failure

def escape : Reader Char := do
  char '\\'
  match ← satisfy fun _ => true with
  | 'b' => return '\x08'
  | 't' => return '\t'
  | 'n' => return '\n'
  | 'f' => return '\x0c'
  | 'r' => return '\r'
  | '"' => return '"'
  | '\\' => return '\\'
  | 'u' => scalar 4
  | 'U' => scalar 8
  | _ => failure

def basicString : Reader String := do
  char '"'
  let cs ← many (satisfy (fun c => isPrintable c && c ≠ '"' && c ≠ '\\') <|> escape)
  char '"'
  return String.ofList cs

def literalString : Reader String := do
  char '\''
  let cs ← takeWhile fun c => isPrintable c && c ≠ '\''
  char '\''
  return String.ofList cs

def newlineChar : Reader (List Char) := do
  newline
  return ['\n']

/-- A backslash at the end of a line, with the white space after it. -/
def lineContinuation : Reader (List Char) := do
  char '\\'
  space
  newline
  discard (many (discard (satisfy fun c => c = ' ' || c = '\t') <|> newline))
  return []

/-- At most two quotes inside a string of several lines, not followed by a third. -/
def innerQuotes (quote : Char) : Reader (List Char) := do
  let quotes ← takeWhile1 (· = quote)
  if quotes.length ≤ 2 then return quotes else failure

/-- The end of a string of several lines: three quotes, after at most two that belong to it. -/
def closingQuotes (quote : Char) : Reader (List Char) := do
  let quotes ← takeWhile1 (· = quote)
  if 3 ≤ quotes.length && quotes.length ≤ 5 then return quotes.drop 3 else failure

/-- A string of several lines in the given quotes, made of the given parts. -/
def longString (quote : Char) (part : Reader (List Char)) : Reader String := do
  char quote
  char quote
  char quote
  discard (optional newline)
  let parts ← many (part <|> newlineChar <|> innerQuotes quote)
  let last ← closingQuotes quote
  return String.ofList (parts.flatten ++ last)

def longBasicString : Reader String :=
  longString '"' <|
    takeWhile1 (fun c => isPrintable c && c ≠ '"' && c ≠ '\\') <|> lineContinuation <|>
      (do return [← escape])

def longLiteralString : Reader String :=
  longString '\'' (takeWhile1 fun c => isPrintable c && c ≠ '\'')

def string : Reader String :=
  longBasicString <|> basicString <|> longLiteralString <|> literalString

/-! ## Numbers and dates -/

def digits (p : Char → Bool) : Reader (List Char) := do
  let first ← takeWhile1 p
  let rest ← many (do char '_'; takeWhile1 p)
  return first ++ rest.flatten

def valueIn (base : Nat) (cs : List Char) : Int :=
  (cs.foldl (fun n c => base * n + (Json.hexDigit? c).getD 0) 0 : Nat)

def wordInteger (z : Int) : Reader Toml :=
  if -Int.pow 2 63 ≤ z ∧ z < Int.pow 2 63 then return .integer z else failure

def basedInteger (mark : String) (base : Nat) : Reader Toml := do
  word mark
  let ds ← digits fun c => match Json.hexDigit? c with
    | some d => d < base
    | none => false
  wordInteger (valueIn base ds)

def sign : Reader Bool := (do char '-'; return true) <|> (do char '+'; return false) <|> pure false

def decimalDigits : Reader (List Char) := do
  let ds ← digits Char.isDigit
  if ds.length ≠ 1 && ds.head? = some '0' then failure else return ds

def decimalInteger : Reader Toml := do
  let negative ← sign
  let n := valueIn 10 (← decimalDigits)
  wordInteger (if negative then -n else n)

def exponent : Reader Unit := do
  discard (satisfy fun c => c = 'e' || c = 'E')
  discard sign
  discard (digits Char.isDigit)

def fraction : Reader Unit := do
  char '.'
  discard (digits Char.isDigit)

def float : Reader Toml := do
  discard sign
  word "inf" <|> word "nan" <|> (do
    discard decimalDigits
    (do fraction; discard (optional exponent)) <|> exponent)
  return .float

def fixedDigits (count low high : Nat) : Reader Nat := do
  let cs ← (List.range count).mapM fun _ => satisfy Char.isDigit
  let n := (valueIn 10 cs).toNat
  if low ≤ n && n ≤ high then return n else failure

def daysIn (year month : Nat) : Nat :=
  if month = 2 then
    if year % 4 = 0 && (year % 100 ≠ 0 || year % 400 = 0) then 29 else 28
  else if month = 4 || month = 6 || month = 9 || month = 11 then 30
  else 31

def fullDate : Reader Unit := do
  let year ← fixedDigits 4 0 9999
  char '-'
  let month ← fixedDigits 2 1 12
  char '-'
  discard (fixedDigits 2 1 (daysIn year month))

def clockTime : Reader Unit := do
  discard (fixedDigits 2 0 23)
  char ':'
  discard (fixedDigits 2 0 59)
  char ':'
  discard (fixedDigits 2 0 60)
  discard (optional (do char '.'; takeWhile1 Char.isDigit))

def offset : Reader Unit :=
  discard (satisfy fun c => c = 'Z' || c = 'z') <|> (do
    discard (satisfy fun c => c = '+' || c = '-')
    discard (fixedDigits 2 0 24)
    char ':'
    discard (fixedDigits 2 0 59))

def date : Reader Toml := do
  (do
    fullDate
    discard (optional (do
      discard (satisfy fun c => c = 'T' || c = 't' || c = ' ')
      clockTime
      discard (optional offset)))) <|> clockTime
  return .date

def boolean : Reader Toml :=
  (do word "true"; return .boolean true) <|> (do word "false"; return .boolean false)

/-- The longest of the readings of a number or date, each of which must end where a value can. -/
def scalarValue (r : Reader Toml) : Reader Toml := do
  let v ← r
  match ← get with
  | [] => return v
  | c :: _ =>
    if c.isAlphanum || c = '_' || c = '-' || c = '+' || c = '.' || c = ':' then failure
    else return v

/-! ## Keys and values -/

def simpleKey : Reader String :=
  (String.ofList <$> takeWhile1 fun c => c.isAlphanum || c = '_' || c = '-') <|>
    basicString <|> literalString

def key : Reader (List String × String) := do
  space
  let first ← simpleKey
  let rest ← many (do space; char '.'; space; simpleKey)
  space
  let parts := first :: rest
  return (parts.dropLast, parts.getLast?.getD first)

/-- How deeply arrays and inline tables may not be nested. -/
def nestingLimit : Nat := 80

mutual

/-- A value inside fewer than `depth` further arrays and inline tables. -/
def value : Nat → Reader Toml
  | 0 => failure
  | depth + 1 =>
    (Toml.string <$> string) <|> array depth <|> table depth <|> boolean <|>
      scalarValue date <|> scalarValue float <|> basedInteger "0x" 16 <|> basedInteger "0o" 8 <|>
      basedInteger "0b" 2 <|> scalarValue decimalInteger

def array (depth : Nat) : Reader Toml := do
  char '['
  blanks
  let items ← (do
    let first ← value depth
    let rest ← many (do
      blanks
      char ','
      blanks
      value depth)
    blanks
    discard (optional (char ','))
    blanks
    return first :: rest) <|> pure []
  char ']'
  return .array items

def table (depth : Nat) : Reader Toml := do
  char '\x7b'
  let pair : Reader (List String × String × Toml) := do
    let (path, name) ← key
    char '='
    space
    let v ← value depth
    space
    return (path, name, v)
  let pairs ← (do
    let first ← pair
    let rest ← many (do char ','; pair)
    return first :: rest) <|> (do space; return [])
  char '\x7d'
  match inlineTable? pairs with
  | some t => return t
  | none => failure

end

/-! ## Lines -/

def entryLine : Reader Line := do
  let (path, name) ← key
  char '='
  space
  let v ← value nestingLimit
  lineEnd
  return .entry path name v

def headerLine : Reader Line := do
  space
  char '['
  let (path, name) ← key
  char ']'
  lineEnd
  return .header path name

def repeatedHeaderLine : Reader Line := do
  space
  word "[["
  let (path, name) ← key
  word "]]"
  lineEnd
  return .repeatedHeader path name

def emptyLine : Reader Unit := do
  space
  discard (optional comment)
  newline

def lines : Reader (List Line) := do
  discard (optional (char '\ufeff'))
  let found ← many ((do emptyLine; return none) <|>
    some <$> (repeatedHeaderLine <|> headerLine <|> entryLine))
  space
  discard (optional comment)
  atEnd
  return found.filterMap id

end Reader

def read? (text : String) : Option Entries := do
  let (lines, _) ← Reader.lines.run text.toList
  ofLines? lines

end ScriptEngine.Toml
