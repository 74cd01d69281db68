import ScriptEngine.Json.Basic
import ScriptEngine.Number.Text

/-!
# JSON texts

A value is written without blanks. Quotes, backslashes and controls in strings are escaped; a number
that is no integer has the fewest digits that read back.
-/

namespace ScriptEngine.Json

def escapedChar (c : Char) : List Char :=
  if c = '"' then ['\\', '"']
  else if c = '\\' then ['\\', '\\']
  else if c.toNat < 0x20 then
    let digits := Nat.toDigits 16 c.toNat
    '\\' :: 'u' :: (List.replicate (4 - digits.length) '0' ++ digits)
  else [c]

def quotedText (s : String) : String :=
  String.ofList ('"' :: (s.toList.flatMap escapedChar ++ ['"']))

def numeralText : Numeral → String
  | .natural n => toString n
  | .negative n => s!"-{n}"
  | .real x => x.debugText

mutual

def text : Json → String
  | .null => "null"
  | .bool b => toString b
  | .number n => numeralText n
  | .string s => quotedText s
  | .array items => "[" ++ ",".intercalate (itemTexts items) ++ "]"
  | .object members => "\x7b" ++ ",".intercalate (memberTexts members) ++ "\x7d"

def itemTexts : List Json → List String
  | [] => []
  | item :: rest => item.text :: itemTexts rest

def memberTexts : List (String × Json) → List String
  | [] => []
  | (name, value) :: rest => (quotedText name ++ ":" ++ value.text) :: memberTexts rest

end

end ScriptEngine.Json
