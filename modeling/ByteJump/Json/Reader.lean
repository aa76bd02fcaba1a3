import ByteJump.Json.Token

set_option autoImplicit false

/-!
# Reading and printing documents

The reader keeps a stack of the arrays and objects that are still open and moves by one token at a
time, so reading is a left fold over the tokens and needs no recursion.  Where the tokens stop
making sense the innermost open array or object gets the leaf `malformed` as its last entry and all
are closed: what stood before the fault is still there, in the order of the text.

The printer writes the tokens of a document one after the other, without white space.
-/

namespace ByteJump.Json

/-! ## The reader -/

/-- An array or object that is still open; its entries come last first. -/
inductive Frame where
  | array (items : List Value)
  | object (fields : List (Text × Value))
  /-- an object whose next value has the given key -/
  | field (fields : List (Text × Value)) (key : Text)
  deriving Repr

/-- What may come next. -/
inductive Expect where
  | value
  /-- a first item or the end of the array -/
  | firstItem
  /-- a comma or the end of the array -/
  | nextItem
  /-- a first key or the end of the object -/
  | firstKey
  | key
  | colon
  /-- a comma or the end of the object -/
  | nextField
  deriving DecidableEq, Repr

/-- The reader: open, finished with a document (and perhaps with more text behind it), or faulty. -/
inductive Reader where
  | reading (expect : Expect) (stack : List Frame)
  | finished (root : Value) (trailing : Bool)
  | faulty (root : Value)
  deriving Repr

namespace Reader

/-- A frame closed with `v` as its last entry. -/
def closeWith (v : Value) : Frame → Value
  | .array items => .array (v :: items).reverse
  | .object fields => .object ((none, v) :: fields).reverse
  | .field fields key => .object ((key, v) :: fields).reverse

/-- All open frames closed, the innermost with `malformed` as its last entry. -/
def collapse (stack : List Frame) : Value := stack.foldl closeWith .malformed

/-- The reader after a token that cannot stand where it stands. -/
def fail (stack : List Frame) : Reader := .faulty (collapse stack)

/-- The reader after a complete value. -/
def push (v : Value) : List Frame → Reader
  | [] => .finished v false
  | .array items :: stack => .reading .nextItem (.array (v :: items) :: stack)
  | .field fields key :: stack => .reading .nextField (.object ((key, v) :: fields) :: stack)
  | .object fields :: stack => fail (.object fields :: stack)

/-- The reader at the start of a value. -/
def value (stack : List Frame) : Token → Reader
  | .null => push .null stack
  | .bool b => push (.bool b) stack
  | .number n => push (.number n) stack
  | .string text => push (.string text) stack
  | .openArray => .reading .firstItem (.array [] :: stack)
  | .openObject => .reading .firstKey (.object [] :: stack)
  | _ => fail stack

/-- The reader after one more token. -/
def step : Reader → Token → Reader
  | .finished root _, _ => .finished root true
  | .faulty root, _ => .faulty root
  | .reading .value stack, t => value stack t
  | .reading .firstItem (.array items :: stack), .closeArray => push (.array items.reverse) stack
  | .reading .firstItem stack, t => value stack t
  | .reading .nextItem (.array items :: stack), .closeArray => push (.array items.reverse) stack
  | .reading .nextItem stack, .comma => .reading .value stack
  | .reading .firstKey (.object fields :: stack), .closeObject =>
      push (.object fields.reverse) stack
  | .reading .firstKey (.object fields :: stack), .string key =>
      .reading .colon (.field fields key :: stack)
  | .reading .key (.object fields :: stack), .string key =>
      .reading .colon (.field fields key :: stack)
  | .reading .colon stack, .colon => .reading .value stack
  | .reading .nextField (.object fields :: stack), .closeObject =>
      push (.object fields.reverse) stack
  | .reading .nextField stack, .comma => .reading .key stack
  | .reading _ stack, _ => fail stack

end Reader

/-- What a text holds: its document, and whether anything but white space stands behind it. -/
structure Reading where
  value : Value
  trailing : Bool
  deriving Repr

/-- What the reader holds when the tokens end. -/
def Reader.finish : Reader → Reading
  | .finished root trailing => ⟨root, trailing⟩
  | .faulty root => ⟨root, false⟩
  | .reading _ stack => ⟨Reader.collapse stack, false⟩

/-- The document of a list of tokens. -/
def ofTokens (ts : List Token) : Reading := (ts.foldl Reader.step (.reading .value [])).finish

/-- The document of a text. -/
def read (text : String) : Reading := ofTokens (tokens text)

/-! ## The printer -/

namespace Value

mutual

/-- The tokens of a document. -/
def toTokens : Value → List Token
  | .null => [.null]
  | .bool b => [.bool b]
  | .number n => [.number n]
  | .string text => [.string text]
  | .array items => .openArray :: itemTokens items
  | .object fields => .openObject :: fieldTokens fields
  | .malformed => [.invalid]

/-- The tokens of the items of an array and of its end. -/
def itemTokens : List Value → List Token
  | [] => [.closeArray]
  | [v] => toTokens v ++ [.closeArray]
  | v :: w :: vs => toTokens v ++ .comma :: itemTokens (w :: vs)

/-- The tokens of the fields of an object and of its end. -/
def fieldTokens : List (Text × Value) → List Token
  | [] => [.closeObject]
  | [(key, v)] => .string key :: .colon :: (toTokens v ++ [.closeObject])
  | (key, v) :: f :: fs =>
      .string key :: .colon :: (toTokens v ++ .comma :: fieldTokens (f :: fs))

end

/-- The text of a document. -/
def print (v : Value) : String := String.join (v.toTokens.map Token.spell)

end Value

end ByteJump.Json
