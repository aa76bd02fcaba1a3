set_option autoImplicit false

/-!
# Numbers as text

Reading unsigned decimals below a bound, and writing hexadecimal numbers.  A decimal is read digit
by digit and the first trouble counts: a character that is no ASCII digit, or a digit with which
the value reaches the bound.
-/

namespace ByteJump.Text

/-- Why a text is no decimal below the bound. -/
inductive DecimalFault where
  | empty
  | invalidDigit
  | tooLarge
  deriving DecidableEq, Repr

/-- The value of the digits, read behind the digits of `value`. -/
def digitsBelow (bound : Nat) : Nat → List Char → Except DecimalFault Nat
  | value, [] => .ok value
  | value, c :: cs =>
      if c.isDigit then
        let next := value * 10 + (c.toNat - '0'.toNat)
        if next < bound then digitsBelow bound next cs else .error .tooLarge
      else .error .invalidDigit

/-- An optional plus sign and one or more ASCII digits, with a value below the bound. -/
def decimalBelow (bound : Nat) (text : List Char) : Except DecimalFault Nat :=
  match text with
  | [] => .error .empty
  | ['+'] => .error .invalidDigit
  | '+' :: digits => digitsBelow bound 0 digits
  | digits => digitsBelow bound 0 digits

/-- The wording of a fault. -/
def DecimalFault.message : DecimalFault → String
  | .empty => "cannot parse integer from empty string"
  | .invalidDigit => "invalid digit found in string"
  | .tooLarge => "number too large to fit in target type"

/-- Lower-case hexadecimal digits, most significant first. -/
def hexDigits (n : Nat) : String := String.ofList (Nat.toDigits 16 n)

/-- Hexadecimal with the mark `0x`. -/
def hex (n : Nat) : String := "0x" ++ hexDigits n

/-- At least eight hexadecimal digits. -/
def hex8 (n : Nat) : String :=
  let digits := Nat.toDigits 16 n
  String.ofList (List.replicate (8 - digits.length) '0' ++ digits)

end ByteJump.Text
