/-!
# Coloured text

Texts for terminals: a style is switched on before the text and off after it.
-/

namespace ScriptEngine.Text

def styled (on off : Nat) (text : String) : String := s!"\x1b[{on}m{text}\x1b[{off}m"

def bold : String → String := styled 1 0

def dimmed : String → String := styled 2 0

def red : String → String := styled 31 39

def green : String → String := styled 32 39

def yellow : String → String := styled 33 39

def cyan : String → String := styled 36 39

def white : String → String := styled 37 39

end ScriptEngine.Text
