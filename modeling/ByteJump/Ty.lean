import ByteJump.Declaration

set_option autoImplicit false

/-!
# Types

Values are numbers of 1 to 16 bytes, strings, integer literals whose type is still open, structs
and arrays.  A type that is no array is an object: it is the same as itself only, so two sets of
builtin types share no type, and neither do two definitions of a struct.  Arrays have no identity
of their own; they are the same when they have the same element type and the same count.
-/

-- powers of natural numbers are the built-in ones
attribute [local instance (high)] instPowNat

namespace ByteJump

/-- The builtin sizes of numbers. -/
inductive WordSize where
  | n8
  | n16
  | n32
  | n64
  | n128
  deriving DecidableEq, Repr

/-- The name of a size. -/
def WordSize.name : WordSize → String
  | .n8 => "n8"
  | .n16 => "n16"
  | .n32 => "n32"
  | .n64 => "n64"
  | .n128 => "n128"

/-- How many bytes a size has. -/
def WordSize.bytes : WordSize → Nat
  | .n8 => 1
  | .n16 => 2
  | .n32 => 4
  | .n64 => 8
  | .n128 => 16

/-- A type that is no array.  Builtin types carry the number of their set. -/
inductive Ty.Object where
  | word (set : Nat) (size : WordSize)
  | string (set : Nat)
  /-- the type of an integer literal -/
  | literal (set : Nat)
  | struct (id : DeclId) (name : String)
  deriving DecidableEq, Repr

/-- A type. -/
inductive Ty where
  | object (object : Ty.Object)
  | array (inner : Ty) (count : Nat)
  deriving DecidableEq, Repr

/-- The largest number a word of the address space holds. -/
def maxWord : Nat := 2 ^ (64 : Nat) - 1

namespace Ty

/-! ## Width -/

/-- The size in bytes of values of an object type; structs have none. -/
def Object.width : Object → Option Nat
  | .word _ size => some size.bytes
  | .string _ | .literal _ => some 16
  | .struct .. => none

/-- The size in bytes of the values of a type, cut off at the largest word. -/
def width : Ty → Option Nat
  | .object o => o.width
  | .array inner count => (width inner).map fun w => min (w * count) maxWord

/-! ## Kinds of types -/

/-- Values of the type can be computed with: numbers, strings and literals. -/
def isInteger : Ty → Bool
  | .object (.word ..) | .object (.string _) | .object (.literal _) => true
  | _ => false

/-- The type of an integer literal. -/
def isLiteral : Ty → Bool
  | .object (.literal _) => true
  | _ => false

/-! ## Same types -/

/-- The same type: arrays by count and element type, all others by identity. -/
def same : Ty → Ty → Bool
  | .array a m, .array b n => m == n && same a b
  | .object a, .object b => a == b
  | _, _ => false

/-! ## Text -/

/-- The text of an object type. -/
def Object.text : Object → String
  | .word _ size => size.name
  | .string _ => "string"
  | .literal _ => "integer literal"
  | .struct _ name => "struct " ++ name

/-- A type as shown to the user. -/
def text : Ty → String
  | .object o => o.text
  | .array inner count => text inner ++ "[" ++ toString count ++ "]"

end Ty

/-! ## Builtin types -/

/-- A set of builtin types. -/
structure Builtins where
  set : Nat
  deriving DecidableEq, Repr

namespace Builtins

/-- The number type of a size. -/
def word (b : Builtins) (size : WordSize) : Ty := .object (.word b.set size)

/-- The type of strings. -/
def string (b : Builtins) : Ty := .object (.string b.set)

/-- The type of integer literals. -/
def literal (b : Builtins) : Ty := .object (.literal b.set)

/-- The type of addresses. -/
def address (b : Builtins) : Ty := b.word .n64

/-- The builtin types that have a name. -/
def named (b : Builtins) : List (String × Ty) :=
  [WordSize.n8, .n16, .n32, .n64, .n128].map (fun size => (size.name, b.word size))
    ++ [("string", b.string), ("addr", b.address)]

end Builtins

end ByteJump
