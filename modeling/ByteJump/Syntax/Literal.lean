import ByteJump.Bytes
import ByteJump.Json.Value
import ByteJump.Text.Number

set_option autoImplicit false

/-!
# Integer literals as JSON

A literal of 128 bits travels as a number when it has 64 bits and as a string of decimal digits
otherwise.  The reader takes any natural number of 64 bits and any decimal string below `2^128`; a
negative number and a string that is no such decimal are refused with a message of their own.
-/

-- powers of natural numbers are the built-in ones
attribute [local instance (high)] instPowNat

namespace ByteJump.Syntax

/-- Why a document is no integer literal. -/
inductive LiteralFault where
  | negative (magnitude : Nat)
  | invalid (text : String) (reason : Text.DecimalFault)
  /-- neither an integer nor a string -/
  | wrongKind
  deriving DecidableEq, Repr

/-- The wording of the faults that have one. -/
def LiteralFault.message? : LiteralFault → Option String
  | .negative magnitude => some ("negative literal -" ++ toString magnitude)
  | .invalid text reason => some ("invalid literal `" ++ text ++ "`: " ++ reason.message)
  | .wrongKind => none

/-- The document of a literal. -/
def encodeLiteral (value : Word128) : Json.Value :=
  if value.toNat < 2 ^ (64 : Nat) then .number (.natural (UInt64.ofNat value.toNat))
  else .string (some (toString value.toNat))

/-- The literal of a document. -/
def decodeLiteral : Json.Value → Except LiteralFault Word128
  | .number (.natural n) => .ok (BitVec.ofNat 128 n.toNat)
  | .number (.negative m) => .error (.negative m)
  | .string (some s) =>
      match Text.decimalBelow (2 ^ (128 : Nat)) s.toList with
      | .ok n => .ok (BitVec.ofNat 128 n)
      | .error reason => .error (.invalid s reason)
  | _ => .error .wrongKind

end ByteJump.Syntax
