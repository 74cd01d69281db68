/-!
# Tokens

Kinds of syntax nodes and opcodes of the interpreter share one flat space. A token's code is its
position in that space; the codes from `Token.firstBytecode` to `Token.lastBytecode` may stand in
byte code, and every later kind only occurs in trees.

Names are read without regard to the case of ASCII letters. `Token.ofCode?_code` says that every
token is found under its code.
-/

namespace ScriptEngine

/-- A kind of syntax node or an opcode of the interpreter. -/
inductive Token where
  | error
  | endOfInput
  | endOfLine
  /-- Pop the stack into the result register -/
  | popv
  /-- Push an object onto the scope chain -/
  | enterWith
  /-- Pop the innermost with scope -/
  | leaveWith
  | ret
  | goto
  /-- Jump if true -/
  | ifEq
  /-- Jump if false -/
  | ifNe
  /-- Assign through a bound name -/
  | setName
  | bitOr
  | bitXor
  | bitAnd
  | eq
  | ne
  | lt
  | le
  | gt
  | ge
  | lsh
  | rsh
  | ursh
  | add
  | sub
  | mul
  | div
  | mod
  | not
  | bitNot
  | pos
  | neg
  | new
  | delProp
  | typeOf
  | getProp
  | setProp
  | getElem
  | setElem
  | call
  | name
  | number
  | string
  | zero
  | one
  | nullValue
  | thisValue
  | falseValue
  | trueValue
  | strictEq
  | strictNe
  | regExp
  | pop
  /-- Find the scope object that holds a name -/
  | bindName
  | throw
  | inOp
  | instanceOf
  | getVar
  | setVar
  | undefinedValue
  /-- Create the scope object of a catch clause -/
  | catchScope
  /-- Start an enumeration of keys -/
  | enumInit
  /-- Advance an enumeration of keys -/
  | enumNext
  /-- Current key of an enumeration -/
  | enumId
  /-- The function being executed -/
  | thisFn
  /-- Return the value in the result register -/
  | returnPopv
  /-- Call a finally block as a subroutine -/
  | jsr
  /-- Return from a finally subroutine -/
  | retsub
  | nop
  | tryStmt
  | semi
  | leftBracket
  | rightBracket
  | leftBrace
  | rightBrace
  | leftParen
  | rightParen
  | comma
  | assign
  | hook
  | colon
  | or
  | and
  | inc
  | dec
  | dot
  /-- Function body, or the node that stands for one in the enclosing body -/
  | function
  | ifKey
  | elseKey
  | switch
  | switchCase
  | switchDefault
  | whileKey
  | doKey
  | forKey
  | breakStmt
  | continueStmt
  | var
  | withBody
  | catchKey
  | finallyKey
  | void
  /-- Statement list -/
  | block
  | label
  /-- Jump destination -/
  | target
  | loop
  | exprStmt
  | script
  /-- Block owning interpreter locals -/
  | localBlock
  | objectLit
  | arrayLit
  | enumDone
deriving DecidableEq, Repr, Inhabited

namespace Token

/-- Every token, in the order of the codes. -/
def all : List Token :=
  [.error, .endOfInput, .endOfLine, .popv, .enterWith, .leaveWith, .ret, .goto, .ifEq, .ifNe,
   .setName, .bitOr, .bitXor, .bitAnd, .eq, .ne, .lt, .le, .gt, .ge, .lsh, .rsh, .ursh, .add,
   .sub, .mul, .div, .mod, .not, .bitNot, .pos, .neg, .new, .delProp, .typeOf, .getProp,
   .setProp, .getElem, .setElem, .call, .name, .number, .string, .zero, .one, .nullValue,
   .thisValue, .falseValue, .trueValue, .strictEq, .strictNe, .regExp, .pop, .bindName, .throw,
   .inOp, .instanceOf, .getVar, .setVar, .undefinedValue, .catchScope, .enumInit, .enumNext,
   .enumId, .thisFn, .returnPopv, .jsr, .retsub, .nop, .tryStmt, .semi, .leftBracket,
   .rightBracket, .leftBrace, .rightBrace, .leftParen, .rightParen, .comma, .assign, .hook,
   .colon, .or, .and, .inc, .dec, .dot, .function, .ifKey, .elseKey, .switch, .switchCase,
   .switchDefault, .whileKey, .doKey, .forKey, .breakStmt, .continueStmt, .var, .withBody,
   .catchKey, .finallyKey, .void, .block, .label, .target, .loop, .exprStmt, .script,
   .localBlock, .objectLit, .arrayLit, .enumDone]

def spelling : Token → String
  | .error => "ERROR"
  | .endOfInput => "EOF"
  | .endOfLine => "EOL"
  | .popv => "POPV"
  | .enterWith => "ENTERWITH"
  | .leaveWith => "LEAVEWITH"
  | .ret => "RETURN"
  | .goto => "GOTO"
  | .ifEq => "IFEQ"
  | .ifNe => "IFNE"
  | .setName => "SETNAME"
  | .bitOr => "BITOR"
  | .bitXor => "BITXOR"
  | .bitAnd => "BITAND"
  | .eq => "EQ"
  | .ne => "NE"
  | .lt => "LT"
  | .le => "LE"
  | .gt => "GT"
  | .ge => "GE"
  | .lsh => "LSH"
  | .rsh => "RSH"
  | .ursh => "URSH"
  | .add => "ADD"
  | .sub => "SUB"
  | .mul => "MUL"
  | .div => "DIV"
  | .mod => "MOD"
  | .not => "NOT"
  | .bitNot => "BITNOT"
  | .pos => "POS"
  | .neg => "NEG"
  | .new => "NEW"
  | .delProp => "DELPROP"
  | .typeOf => "TYPEOF"
  | .getProp => "GETPROP"
  | .setProp => "SETPROP"
  | .getElem => "GETELEM"
  | .setElem => "SETELEM"
  | .call => "CALL"
  | .name => "NAME"
  | .number => "NUMBER"
  | .string => "STRING"
  | .zero => "ZERO"
  | .one => "ONE"
  | .nullValue => "NULL"
  | .thisValue => "THIS"
  | .falseValue => "FALSE"
  | .trueValue => "TRUE"
  | .strictEq => "SHEQ"
  | .strictNe => "SHNE"
  | .regExp => "REGEXP"
  | .pop => "POP"
  | .bindName => "BINDNAME"
  | .throw => "THROW"
  | .inOp => "IN"
  | .instanceOf => "INSTANCEOF"
  | .getVar => "GETVAR"
  | .setVar => "SETVAR"
  | .undefinedValue => "UNDEFINED"
  | .catchScope => "CATCH_SCOPE"
  | .enumInit => "ENUM_INIT"
  | .enumNext => "ENUM_NEXT"
  | .enumId => "ENUM_ID"
  | .thisFn => "THISFN"
  | .returnPopv => "RETURN_POPV"
  | .jsr => "JSR"
  | .retsub => "RETSUB"
  | .nop => "NOP"
  | .tryStmt => "TRY"
  | .semi => "SEMI"
  | .leftBracket => "LB"
  | .rightBracket => "RB"
  | .leftBrace => "LC"
  | .rightBrace => "RC"
  | .leftParen => "LP"
  | .rightParen => "RP"
  | .comma => "COMMA"
  | .assign => "ASSIGN"
  | .hook => "HOOK"
  | .colon => "COLON"
  | .or => "OR"
  | .and => "AND"
  | .inc => "INC"
  | .dec => "DEC"
  | .dot => "DOT"
  | .function => "FUNCTION"
  | .ifKey => "IF"
  | .elseKey => "ELSE"
  | .switch => "SWITCH"
  | .switchCase => "CASE"
  | .switchDefault => "DEFAULT"
  | .whileKey => "WHILE"
  | .doKey => "DO"
  | .forKey => "FOR"
  | .breakStmt => "BREAK"
  | .continueStmt => "CONTINUE"
  | .var => "VAR"
  | .withBody => "WITH"
  | .catchKey => "CATCH"
  | .finallyKey => "FINALLY"
  | .void => "VOID"
  | .block => "BLOCK"
  | .label => "LABEL"
  | .target => "TARGET"
  | .loop => "LOOP"
  | .exprStmt => "EXPRSTMT"
  | .script => "SCRIPT"
  | .localBlock => "LOCAL_BLOCK"
  | .objectLit => "OBJECTLIT"
  | .arrayLit => "ARRAYLIT"
  | .enumDone => "ENUM_DONE"

instance : ToString Token := ⟨spelling⟩

def code (t : Token) : Nat := t.ctorIdx

def ofCode? (n : Nat) : Option Token := all[n]?

def firstBytecode : Token := .popv

def lastBytecode : Token := .nop

def isBytecode (t : Token) : Bool :=
  firstBytecode.code ≤ t.code && t.code ≤ lastBytecode.code

/-- The opcode with the given code; kinds outside the byte-code range are refused. -/
def ofOpcode? (n : Nat) : Option Token := (ofCode? n).filter isBytecode

def isJump : Token → Bool
  | .goto | .ifEq | .ifNe | .jsr | .loop | .label | .breakStmt | .continueStmt | .tryStmt => true
  | _ => false

/-- The token of a name; the case of ASCII letters does not matter. -/
def ofName? (s : String) : Option Token :=
  let upper := s.map Char.toUpper
  all.find? fun t => t.spelling == upper

def unknownName (s : String) : String := s!"unknown token name '{s}'"

theorem ofCode?_code (t : Token) : ofCode? t.code = some t := by
  cases t <;> rfl

theorem code_injective {t u : Token} (h : t.code = u.code) : t = u := by
  have := congrArg ofCode? h
  simpa [ofCode?_code] using this

end Token

end ScriptEngine
