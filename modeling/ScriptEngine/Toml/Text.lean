/-!
# Strings in TOML texts

A string is written in the first of these forms that needs no escape: in double quotes, in single
quotes, over several lines in double quotes, over several lines in single quotes. If all of them
need one, it is written in double quotes with escapes.
-/

namespace ScriptEngine.Toml

def isControl (c : Char) : Bool :=
  (c.toNat < 0x20 && c ≠ '\t' && c ≠ '\n') || c = '\x7f'

/-- The longest run of a character, after `current` of them directly before the text. -/
def longestRun (quote : Char) (current : Nat) : List Char → Nat
  | [] => current
  | c :: rest =>
    if c = quote then longestRun quote (current + 1) rest
    else max current (longestRun quote 0 rest)

/-- How a character is written in double quotes; a line end only needs an escape on one line. -/
def escapedChar (oneLine : Bool) (c : Char) : List Char :=
  if c = '"' then ['\\', '"']
  else if c = '\\' then ['\\', '\\']
  else if c = '\x08' then ['\\', 'b']
  else if c = '\t' then ['\\', 't']
  else if c = '\n' then if oneLine then ['\\', 'n'] else [c]
  else if c = '\x0c' then ['\\', 'f']
  else if c = '\r' then ['\\', 'r']
  else if isControl c then
    let digits := (Nat.toDigits 16 c.toNat).map Char.toUpper
    '\\' :: 'u' :: (List.replicate (4 - digits.length) '0' ++ digits)
  else [c]

def quoted (s : String) : String :=
  let cs := s.toList
  let controls := cs.any isControl
  let escapes := controls || cs.contains '\\'
  let newline := cs.contains '\n'
  let doubles := longestRun '"' 0 cs
  let singles := longestRun '\'' 0 cs
  let start := if newline then "\n" else ""
  if !escapes && doubles = 0 && !newline then s!"\"{s}\""
  else if !controls && singles = 0 && !newline then s!"'{s}'"
  else if !escapes && doubles ≤ 2 then s!"\"\"\"{start}{s}\"\"\""
  else if !controls && singles ≤ 2 then s!"'''{start}{s}'''"
  else
    let body := String.ofList (cs.flatMap (escapedChar !newline))
    if newline then s!"\"\"\"\n{body}\"\"\"" else s!"\"{body}\""

end ScriptEngine.Toml
