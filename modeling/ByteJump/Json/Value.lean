set_option autoImplicit false

/-!
# JSON documents

A document keeps what its readers can tell apart: fields stay in the order of the text, also when a
key is repeated; a number is a natural number of 64 bits, a negative one of 64 bits, or any other
spelling; a string that is not made of characters alone is marked.  Where the text stops being JSON
the document has the leaf `malformed`, and nothing stands after it.
-/

namespace ByteJump.Json

/-- The characters of a string, or `none` when one of its escapes is half of a surrogate pair. -/
abbrev Text := Option String

/-- A number by kind: only integers of 64 bits are told apart by value. -/
inductive Number where
  /-- an integer `0 … 2^64 - 1` -/
  | natural (value : UInt64)
  /-- an integer `-2^63 … -1`, by its magnitude -/
  | negative (magnitude : Nat)
  /-- any other number, as spelled; `finite` says that the double it stands for is finite -/
  | other (spelling : String) (finite : Bool)
  deriving DecidableEq, Repr

/-- A JSON document. -/
inductive Value where
  | null
  | bool (value : Bool)
  | number (value : Number)
  | string (text : Text)
  | array (items : List Value)
  | object (fields : List (Text × Value))
  /-- the text is not JSON from here on -/
  | malformed
  deriving Repr

namespace Value

instance : Inhabited Value := ⟨.null⟩

/-! ## Checks on a whole document -/

mutual

/-- No part of the document is malformed. -/
def wellFormed : Value → Bool
  | .malformed => false
  | .array items => itemsWellFormed items
  | .object fields => fieldsWellFormed fields
  | _ => true

/-- No item is malformed. -/
def itemsWellFormed : List Value → Bool
  | [] => true
  | v :: vs => wellFormed v && itemsWellFormed vs

/-- No field is malformed. -/
def fieldsWellFormed : List (Text × Value) → Bool
  | [] => true
  | (_, v) :: fs => wellFormed v && fieldsWellFormed fs

end

/-- Arrays and objects nest at most `levels` deep, all strings and keys are made of characters, all
numbers are finite, and nothing is malformed. -/
def strictWithin : Nat → Value → Bool
  | _, .null => true
  | _, .bool _ => true
  | _, .number (.other _ finite) => finite
  | _, .number _ => true
  | _, .string text => text.isSome
  | levels + 1, .array items => items.all (strictWithin levels)
  | levels + 1, .object fields =>
      fields.all fun field => field.1.isSome && strictWithin levels field.2
  | 0, .array _ => false
  | 0, .object _ => false
  | _, .malformed => false

mutual

/-- How deep arrays and objects nest. -/
def depth : Value → Nat
  | .array items => itemsDepth items + 1
  | .object fields => fieldsDepth fields + 1
  | _ => 0

/-- The greatest depth among the items. -/
def itemsDepth : List Value → Nat
  | [] => 0
  | v :: vs => max (depth v) (itemsDepth vs)

/-- The greatest depth among the fields. -/
def fieldsDepth : List (Text × Value) → Nat
  | [] => 0
  | (_, v) :: fs => max (depth v) (fieldsDepth fs)

end

/-! ## Parts -/

/-- The value of the last field with the given key. -/
def get? (v : Value) (key : String) : Option Value :=
  match v with
  | .object fields => (fields.reverse.find? fun field => field.1 == some key).map Prod.snd
  | _ => none

/-- A number of 64 bits as a document. -/
def ofUInt64 (n : UInt64) : Value := .number (.natural n)

/-- A string as a document. -/
def ofString (s : String) : Value := .string (some s)

/-- A document whose fields have the given names. -/
def ofFields (fields : List (String × Value)) : Value :=
  .object (fields.map fun field => (some field.1, field.2))

end Value

end ByteJump.Json
