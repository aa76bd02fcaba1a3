set_option autoImplicit false

/-!
# Bytes and little-endian numbers

Memory is an array of bytes and every address in it is a natural number.  A number of `w` bytes is
written least significant byte first.  Two directions are needed: the bytes of a number
(`Bytes.ofNat`) and the number that stands at an address of a memory (`Bytes.number`).
-/

-- powers of natural numbers are the built-in ones
attribute [local instance (high)] instPowNat

namespace ByteJump

/-- A 128-bit value: what a register holds and what a constant expression denotes. -/
abbrev Word128 := BitVec 128

/-- The number of addresses a 64-bit word can name. -/
def addressSpace : Nat := 2 ^ (64 : Nat)

namespace Bytes

/-! ## Bytes of a number -/

/-- The `width` low bytes of `n`, least significant first. -/
def ofNat : Nat → Nat → List UInt8
  | 0, _ => []
  | width + 1, n => UInt8.ofNat (n % 256) :: ofNat width (n / 256)

/-- The number whose bytes, least significant first, are given. -/
def toNat : List UInt8 → Nat
  | [] => 0
  | b :: bs => b.toNat + 256 * toNat bs

theorem length_ofNat (width n : Nat) : (ofNat width n).length = width := by
  induction width generalizing n with
  | zero => rfl
  | succ width ih => simp [ofNat, ih]

theorem toNat_ofNat (width n : Nat) : toNat (ofNat width n) = n % 256 ^ width := by
  induction width generalizing n with
  | zero => simp [ofNat, toNat, Nat.mod_one]
  | succ width ih =>
      simp [ofNat, toNat, ih, Nat.pow_succ, Nat.mul_comm _ 256, Nat.mod_mul]

/-! ## Numbers in memory -/

/-- The number spelled by the `width` bytes from `address` on; a byte outside the memory counts
as zero. -/
def number (memory : Array UInt8) (address : Nat) : Nat → Nat
  | 0 => 0
  | width + 1 => (memory.getD address 0).toNat + 256 * number memory (address + 1) width

/-- The number in the `width` bytes at `address`, when all of them lie in the memory. -/
def number? (memory : Array UInt8) (address width : Nat) : Option Nat :=
  if address + width ≤ memory.size then some (number memory address width) else none

/-- The `length` bytes from `address` on, when all of them lie in the memory. -/
def slice? (memory : Array UInt8) (address length : Nat) : Option (Array UInt8) :=
  if address + length ≤ memory.size then some (memory.extract address (address + length))
  else none

/-- The 8-byte word at `address`. -/
def word? (memory : Array UInt8) (address : Nat) : Option Nat := number? memory address 8

/-- Memory with `bytes` written from `address` on; bytes that fall outside are dropped. -/
def write (memory : Array UInt8) (address : Nat) : List UInt8 → Array UInt8
  | [] => memory
  | b :: bs => write (memory.setIfInBounds address b) (address + 1) bs

end Bytes

end ByteJump
