import ByteJump.Fault
import ByteJump.Program

set_option autoImplicit false

/-!
# Constant expressions

Values have 128 bits and all arithmetic is modulo `2^128`.  What a label or a string is worth
depends on who asks, so an environment answers for them; a variable, an element of an array and a
dereference have no constant value.  Operands are evaluated from left to right and before their
operator, and the first fault counts.
-/

-- powers of natural numbers are the built-in ones
attribute [local instance (high)] instPowNat

namespace ByteJump.Constant

/-- What labels and strings are worth at a place. -/
structure Env where
  label : LabelUse → Location → Except Fault Word128
  string : String → Location → Except Fault Word128

/-- The value of a logical not of zero; of any other operand it is 0. -/
def truth : Nat := 8

/-- The fault of a type without a size where one is needed. -/
def noSize (type : Ty) (site : Location) : Fault :=
  .unimplemented ("sizeof `" ++ type.text ++ "`") (some site)

/-- The low bytes of a value that fit a type. -/
def truncate (value : Word128) (type : Ty) (site : Location) : Except Fault Word128 :=
  match type.width with
  | none => .error (noSize type site)
  | some width =>
      if 16 ≤ width then .ok value
      else .ok (BitVec.ofNat 128 (value.toNat % 256 ^ width))

/-- The value of an operator with one operand. -/
def unary (op : UnaryOp) (value : Word128) (site : Location) : Except Fault Word128 :=
  match op with
  | .negate => .ok (-value)
  | .plus => .ok value
  | .complement => .ok (~~~value)
  | .not => .ok (if value = 0 then BitVec.ofNat 128 truth else 0)
  | .deref => .error (.notConstant site)

/-- The value of an operator with two operands; a shift by 128 or more leaves nothing. -/
def binary (op : BinaryOp) (a b : Word128) (site : Location) : Except Fault Word128 :=
  match op with
  | .add => .ok (a + b)
  | .sub => .ok (a - b)
  | .mul => .ok (a * b)
  | .div => if b = 0 then .error (.divisionByZero site) else .ok (a / b)
  | .rem => if b = 0 then .error (.divisionByZero site) else .ok (a % b)
  | .and => .ok (a &&& b)
  | .or => .ok (a ||| b)
  | .xor => .ok (a ^^^ b)
  | .shiftLeft => .ok (if b.toNat < 128 then a <<< b.toNat else 0)
  | .shiftRight => .ok (if b.toNat < 128 then a >>> b.toNat else 0)

/-- The value of an expression. -/
def evaluate (env : Env) : Expr → Except Fault Word128
  | .int value _ => .ok value
  | .str text i => env.string text i.site
  | .label use i => env.label use i.site
  | .variable _ i => .error (.notConstant i.site)
  | .index _ _ i => .error (.notConstant i.site)
  | .cast operand i => do
      let value ← evaluate env operand
      truncate value i.type i.site
  | .unary op operand i => do
      let value ← evaluate env operand
      unary op value i.site
  | .binary op left right i => do
      let a ← evaluate env left
      let b ← evaluate env right
      binary op a b i.site

/-- A use of a label whose target is known is worth what `address` says. -/
def ofTarget (address : Label → Location → Except Fault Word128) (use : LabelUse)
    (site : Location) : Except Fault Word128 :=
  match use.target with
  | some label => address label site
  | none => .error (.unresolvedLabel use.name site)

/-- While names are being resolved no label and no string has an address. -/
def unplaced : Env where
  label := ofTarget fun _ site => .error (.notConstant site)
  string _ site := .error (.notConstant site)

end ByteJump.Constant
