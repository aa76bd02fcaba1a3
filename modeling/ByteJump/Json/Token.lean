import ByteJump.Json.Numeral

set_option autoImplicit false

/-!
# JSON tokens

`tokens` cuts a text into tokens, one character at a time: the lexer is a state, a step per
character and a closing step, so the tokens of a text are a left fold over it.  White space is the
space, the tab, the line feed and the carriage return.  At the first character that cannot be part
of a token the lexer puts the token `invalid` and reads no further.

`Token.spell` is the spelling the printer uses.
-/

namespace ByteJump.Json

/-- A token of a JSON text. -/
inductive Token where
  | openArray
  | closeArray
  | openObject
  | closeObject
  | comma
  | colon
  | null
  | bool (value : Bool)
  | number (value : Number)
  | string (text : Text)
  /-- the text has no token here -/
  | invalid
  deriving DecidableEq, Repr

/-! ## Strings -/

/-- What the next character of a string means. -/
inductive Quoted.Mode where
  | plain
  /-- after a backslash -/
  | escape
  /-- inside `\uXXXX`: digits still to come and the value so far -/
  | unit (missing value : Nat)
  deriving DecidableEq, Repr

/-- A string being read. -/
structure Quoted where
  mode : Quoted.Mode
  /-- a first half of a surrogate pair whose second half may follow -/
  half : Option Nat
  /-- some half stood alone -/
  broken : Bool
  /-- the characters read, last first -/
  chars : List Char
  deriving DecidableEq, Repr

/-- The value of a hexadecimal digit. -/
def hexValue? (c : Char) : Option Nat :=
  if '0' ≤ c ∧ c ≤ '9' then some (c.toNat - '0'.toNat)
  else if 'a' ≤ c ∧ c ≤ 'f' then some (c.toNat - 'a'.toNat + 10)
  else if 'A' ≤ c ∧ c ≤ 'F' then some (c.toNat - 'A'.toNat + 10)
  else none

namespace Quoted

/-- A string of which nothing is read yet. -/
def empty : Quoted := ⟨.plain, none, false, []⟩

/-- The string followed by a character. -/
def pushChar (q : Quoted) (c : Char) : Quoted :=
  ⟨.plain, none, q.broken || q.half.isSome, c :: q.chars⟩

/-- The string followed by the 16-bit unit of an escape. -/
def pushUnit (q : Quoted) (unit : Nat) : Quoted :=
  if 0xD800 ≤ unit ∧ unit < 0xDC00 then
    ⟨.plain, some unit, q.broken || q.half.isSome, q.chars⟩
  else if 0xDC00 ≤ unit ∧ unit < 0xE000 then
    match q.half with
    | some first =>
        let code := 0x10000 + (first - 0xD800) * 0x400 + (unit - 0xDC00)
        ⟨.plain, none, q.broken, Char.ofNat code :: q.chars⟩
    | none => ⟨.plain, none, true, q.chars⟩
  else q.pushChar (Char.ofNat unit)

/-- The character a one-letter escape stands for. -/
def escape? (c : Char) : Option Char :=
  match c with
  | '"' => some '"'
  | '\\' => some '\\'
  | '/' => some '/'
  | 'b' => some '\x08'
  | 'f' => some '\x0c'
  | 'n' => some '\n'
  | 'r' => some '\r'
  | 't' => some '\t'
  | _ => none

/-- The string that has been read. -/
def text (q : Quoted) : Text :=
  if q.broken || q.half.isSome then none else some (String.ofList q.chars.reverse)

end Quoted

/-! ## The lexer -/

/-- What the lexer is in the middle of. -/
inductive Lexer.State where
  | between
  /-- inside `null`, `true` or `false`: the letters still to come -/
  | word (rest : List Char) (token : Token)
  | numeral (n : Numeral)
  | quoted (q : Quoted)
  /-- after a character that is part of no token -/
  | stuck
  deriving DecidableEq, Repr

/-- The lexer: its state and the tokens found, last first. -/
structure Lexer where
  state : Lexer.State
  found : List Token
  deriving DecidableEq, Repr

/-- White space between tokens. -/
def isBlank (c : Char) : Bool := c = ' ' || c = '\n' || c = '\r' || c = '\t'

namespace Lexer

/-- The lexer before the first character. -/
def start : Lexer := ⟨.between, []⟩

/-- The lexer after a text that has no token where it stands. -/
def fail (found : List Token) : Lexer := ⟨.stuck, .invalid :: found⟩

/-- Between tokens, one character decides what starts. -/
def begin (found : List Token) (c : Char) : Lexer :=
  if isBlank c then ⟨.between, found⟩
  else
    match c with
    | '[' => ⟨.between, .openArray :: found⟩
    | ']' => ⟨.between, .closeArray :: found⟩
    | '{' => ⟨.between, .openObject :: found⟩
    | '}' => ⟨.between, .closeObject :: found⟩
    | ',' => ⟨.between, .comma :: found⟩
    | ':' => ⟨.between, .colon :: found⟩
    | '"' => ⟨.quoted .empty, found⟩
    | 'n' => ⟨.word ['u', 'l', 'l'] .null, found⟩
    | 't' => ⟨.word ['r', 'u', 'e'] (.bool true), found⟩
    | 'f' => ⟨.word ['a', 'l', 's', 'e'] (.bool false), found⟩
    | _ =>
        match Numeral.start? c with
        | some n => ⟨.numeral n, found⟩
        | none => fail found

/-- One more character of a string. -/
def stepQuoted (found : List Token) (q : Quoted) (c : Char) : Lexer :=
  match q.mode with
  | .plain =>
      if c = '"' then ⟨.between, .string q.text :: found⟩
      else if c = '\\' then ⟨.quoted { q with mode := .escape }, found⟩
      else if c.toNat < 0x20 then fail found
      else ⟨.quoted (q.pushChar c), found⟩
  | .escape =>
      if c = 'u' then ⟨.quoted { q with mode := .unit 4 0 }, found⟩
      else
        match Quoted.escape? c with
        | some meant => ⟨.quoted (q.pushChar meant), found⟩
        | none => fail found
  | .unit missing value =>
      match hexValue? c with
      | none => fail found
      | some digit =>
          let value := value * 16 + digit
          if missing ≤ 1 then ⟨.quoted (q.pushUnit value), found⟩
          else ⟨.quoted { q with mode := .unit (missing - 1) value }, found⟩

/-- The lexer after one more character. -/
def step (lexer : Lexer) (c : Char) : Lexer :=
  match lexer.state with
  | .between => begin lexer.found c
  | .word [] token => begin (token :: lexer.found) c
  | .word (expected :: rest) token =>
      if c = expected then
        match rest with
        | [] => ⟨.between, token :: lexer.found⟩
        | _ => ⟨.word rest token, lexer.found⟩
      else fail lexer.found
  | .numeral n =>
      match n.push? c with
      | some n => ⟨.numeral n, lexer.found⟩
      | none =>
          match n.finish? with
          | some number => begin (.number number :: lexer.found) c
          | none => fail lexer.found
  | .quoted q => stepQuoted lexer.found q c
  | .stuck => lexer

/-- The tokens of the text that ends here, in order. -/
def finish (lexer : Lexer) : List Token :=
  match lexer.state with
  | .between | .stuck => lexer.found.reverse
  | .numeral n =>
      match n.finish? with
      | some number => (.number number :: lexer.found).reverse
      | none => (.invalid :: lexer.found).reverse
  | .word .. | .quoted _ => (.invalid :: lexer.found).reverse

end Lexer

/-- The tokens of a text. -/
def tokens (text : String) : List Token :=
  (text.toList.foldl Lexer.step Lexer.start).finish

/-! ## Spelling -/

/-- A lower-case hexadecimal digit. -/
def hexDigit (n : Nat) : Char :=
  if n < 10 then Char.ofNat ('0'.toNat + n) else Char.ofNat ('a'.toNat + (n - 10))

/-- The spelling of one character inside a string: the quote, the backslash and the control
characters are escaped, everything else stands for itself. -/
def spellChar (c : Char) : List Char :=
  match c with
  | '"' => ['\\', '"']
  | '\\' => ['\\', '\\']
  | '\x08' => ['\\', 'b']
  | '\x0c' => ['\\', 'f']
  | '\n' => ['\\', 'n']
  | '\r' => ['\\', 'r']
  | '\t' => ['\\', 't']
  | _ =>
      if c.toNat < 0x20 then
        ['\\', 'u', '0', '0', hexDigit (c.toNat / 16), hexDigit (c.toNat % 16)]
      else [c]

/-- The spelling of a string; one that is not made of characters is spelled by half a pair. -/
def spellText : Text → String
  | some s => String.ofList ('"' :: s.toList.flatMap spellChar ++ ['"'])
  | none => "\"\\ud800\""

/-- The spelling of a number. -/
def Number.spell : Number → String
  | .natural n => toString n.toNat
  | .negative m => "-" ++ toString m
  | .other spelling _ => spelling

/-- The spelling of a token. -/
def Token.spell : Token → String
  | .openArray => "["
  | .closeArray => "]"
  | .openObject => "\x7b"
  | .closeObject => "\x7d"
  | .comma => ","
  | .colon => ":"
  | .null => "null"
  | .bool true => "true"
  | .bool false => "false"
  | .number n => n.spell
  | .string text => spellText text
  | .invalid => ""

end ByteJump.Json
