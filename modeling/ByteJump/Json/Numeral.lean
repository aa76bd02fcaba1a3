import ByteJump.Json.Double
import ByteJump.Json.Value

set_option autoImplicit false

/-!
# Numbers in JSON texts

A number is read character by character.  Its digits are kept in a significand of 64 bits: in the
integer part the first digit that does not fit and all digits behind it are left out and counted,
and in the fraction they are left out without a trace.  An integer all of whose digits are kept is
known exactly.  Any other number stands for a double, the product of the double nearest to the
significand and the double nearest to a power of ten; all that is asked of it is whether it is
finite.
-/

-- powers of natural numbers are the built-in ones
attribute [local instance (high)] instPowNat

namespace ByteJump.Json

/-- How far the reading of a number has come. -/
inductive Numeral.Phase where
  /-- after the minus sign -/
  | sign
  /-- after a leading zero -/
  | zero
  /-- inside the integer part -/
  | integer
  /-- after the point -/
  | point
  /-- inside the fraction -/
  | fraction
  /-- after the letter that opens the exponent -/
  | mark
  /-- after the sign of the exponent -/
  | markSign
  /-- inside the exponent -/
  | exponent
  deriving DecidableEq, Repr

/-- A number being read: `significand · 10 ^ (power ± exponent)`. -/
structure Numeral where
  phase : Numeral.Phase
  negative : Bool
  /-- the digits kept -/
  significand : Nat
  /-- a digit of the part being read was left out -/
  full : Bool
  /-- digits left out of the integer part, less digits kept of the fraction -/
  power : Int
  exponentNegative : Bool
  exponent : Nat
  /-- the characters read, last first -/
  spelled : List Char
  deriving DecidableEq, Repr

/-- The value of a decimal digit. -/
def digitValue (c : Char) : Nat := c.toNat - '0'.toNat

namespace Numeral

/-- The significands lie below this number. -/
def significandBound : Nat := 2 ^ (64 : Nat)

/-- The greatest power of ten that is a finite double. -/
def maxPower : Nat := 308

/-- A number that starts with the character `c`. -/
def start? (c : Char) : Option Numeral :=
  if c = '-' then some ⟨.sign, true, 0, false, 0, false, 0, [c]⟩
  else if c = '0' then some ⟨.zero, false, 0, false, 0, false, 0, [c]⟩
  else if c.isDigit then some ⟨.integer, false, digitValue c, false, 0, false, 0, [c]⟩
  else none

/-- The significand with one more digit, if there is room for it. -/
def extend? (n : Numeral) (c : Char) : Option Nat :=
  let longer := n.significand * 10 + digitValue c
  if n.full || significandBound ≤ longer then none else some longer

/-- The number with one more digit in its integer part. -/
def pushInteger (n : Numeral) (phase : Phase) (c : Char) : Numeral :=
  let n := { n with phase := phase, spelled := c :: n.spelled }
  match n.extend? c with
  | some longer => { n with significand := longer }
  | none => { n with full := true, power := n.power + 1 }

/-- The number with one more digit in its fraction. -/
def pushFraction (n : Numeral) (c : Char) : Numeral :=
  let n := { n with phase := .fraction, spelled := c :: n.spelled }
  match n.extend? c with
  | some longer => { n with significand := longer, power := n.power - 1 }
  | none => { n with full := true }

/-- The number with one more digit in its exponent. -/
def pushExponent (n : Numeral) (c : Char) : Numeral :=
  { n with
    phase := .exponent, exponent := n.exponent * 10 + digitValue c, spelled := c :: n.spelled }

/-- The number with a point behind it; digits of the fraction are kept if there is room. -/
def pushPoint (n : Numeral) (c : Char) : Numeral :=
  { n with phase := .point, full := false, spelled := c :: n.spelled }

/-- The number with a mark or a sign of the exponent behind it. -/
def pushMark (n : Numeral) (phase : Phase) (c : Char) : Numeral :=
  { n with
    phase := phase, exponentNegative := n.exponentNegative || (phase = .markSign && c = '-'),
    spelled := c :: n.spelled }

/-- The number continued by `c`, if `c` can stand there. -/
def push? (n : Numeral) (c : Char) : Option Numeral :=
  let opensExponent := c = 'e' ∨ c = 'E'
  match n.phase with
  | .sign =>
      if c = '0' then some (n.pushInteger .zero c)
      else if c.isDigit then some (n.pushInteger .integer c)
      else none
  | .zero =>
      if c = '.' then some (n.pushPoint c)
      else if opensExponent then some (n.pushMark .mark c)
      else none
  | .integer =>
      if c.isDigit then some (n.pushInteger .integer c)
      else if c = '.' then some (n.pushPoint c)
      else if opensExponent then some (n.pushMark .mark c)
      else none
  | .point => if c.isDigit then some (n.pushFraction c) else none
  | .fraction =>
      if c.isDigit then some (n.pushFraction c)
      else if opensExponent then some (n.pushMark .mark c)
      else none
  | .mark =>
      if c = '+' ∨ c = '-' then some (n.pushMark .markSign c)
      else if c.isDigit then some (n.pushExponent c)
      else none
  | .markSign => if c.isDigit then some (n.pushExponent c) else none
  | .exponent => if c.isDigit then some (n.pushExponent c) else none

/-- The power of ten the significand is multiplied with. -/
def totalPower (n : Numeral) : Int :=
  if n.exponentNegative then n.power - n.exponent else n.power + n.exponent

/-- The number stands for a finite double.  Zero does with any power of ten, and so does any
significand that is divided by one. -/
def finite (n : Numeral) : Bool :=
  let power := n.totalPower
  if n.significand = 0 ∨ power < 0 then true
  else if maxPower < power then false
  else
    Double.isFinite
      (Double.times (Double.nearest n.significand) (Double.nearest (10 ^ power.toNat)))

/-- The characters of the number in the order of the text. -/
def spelling (n : Numeral) : String := String.ofList n.spelled.reverse

/-- The number as one that stands for a double. -/
def double (n : Numeral) : Number := .other n.spelling n.finite

/-- The number, if it is complete. -/
def finish? (n : Numeral) : Option Number :=
  match n.phase with
  | .zero | .integer =>
      if n.full then some n.double
      else if !n.negative then some (.natural (UInt64.ofNat n.significand))
      else if 0 < n.significand ∧ n.significand ≤ 2 ^ (63 : Nat) then some (.negative n.significand)
      else some n.double
  | .fraction | .exponent => some n.double
  | _ => none

end Numeral

end ByteJump.Json
