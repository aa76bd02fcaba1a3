set_option autoImplicit false

/-!
# Doubles

A double that is a natural number is a multiple of a power of two with at most 53 significant bits,
and the finite ones lie below `2 ^ 1024`.  `nearest` is the double nearest to a natural number when
no bound is put on its size, and `times` is the product of two doubles; a result that is not below
the bound is infinite.
-/

-- powers of natural numbers are the built-in ones
attribute [local instance (high)] instPowNat

namespace ByteJump.Json.Double

/-- The significant bits of a double. -/
def precision : Nat := 53

/-- The least power of two that is no finite double. -/
def bound : Nat := 2 ^ (1024 : Nat)

/-- The multiple of `unit` nearest to a number, and of two that are equally near the even one. -/
def nearestMultiple (unit n : Nat) : Nat :=
  let rest := n % unit
  if 2 * rest < unit ∨ (2 * rest = unit ∧ n / unit % 2 = 0) then n / unit * unit
  else (n / unit + 1) * unit

/-- The value of the last of the significant bits of a number. -/
def unitOf (n : Nat) : Nat := 2 ^ (n.log2 + 1 - precision)

/-- The double nearest to a number, and of two that are equally near the even one. -/
def nearest (n : Nat) : Nat := nearestMultiple (unitOf n) n

/-- The product of two doubles. -/
def times (a b : Nat) : Nat := nearest (a * b)

/-- A result is a finite double. -/
def isFinite (x : Nat) : Bool := x < bound

end ByteJump.Json.Double
