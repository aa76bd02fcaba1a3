import ByteJump.Bytes

set_option autoImplicit false

/-!
# The layout of an image

```text
0x00000  entry address (8 bytes)
0x00008  stack pointer (8 bytes, not used)
0x00010  immediate register (16 bytes)
0x00020  registers, 16 bytes each
0x10000  addition table: byte a * 256 + b holds a + b modulo 256
0x20000  logical-not page: byte 0 holds 8, all others 0
0x20100  code, constants and inline data
```
-/

namespace ByteJump

namespace Memory

/-! ## Sizes -/

/-- Bytes of an instruction: the addresses of its source, its destination and its successor. -/
def instructionSize : Nat := 24

/-- Bytes of an address. -/
def addressSize : Nat := 8

/-- Bytes of a register. -/
def registerSize : Nat := 16

/-- Where the source address stands inside an instruction. -/
def sourceField : Nat := 0

/-- Where the destination address stands inside an instruction. -/
def destinationField : Nat := 8

/-- Where the address of the next instruction stands inside an instruction. -/
def nextField : Nat := 16

/-! ## Addresses -/

/-- The word that holds the address a run starts at. -/
def entryAddress : Nat := 0

/-- The word kept for a stack pointer. -/
def stackAddress : Nat := 8

/-- The register in which expressions are computed. -/
def immediate : Nat := 16

/-- The first byte of the addition table. -/
def addTable : Nat := 0x10000

/-- Bytes of the addition table. -/
def addTableSize : Nat := 0x10000

/-- The first byte of the logical-not page. -/
def notTable : Nat := 0x20000

/-- Bytes of the logical-not page. -/
def notTableSize : Nat := 256

/-- The first byte of the code. -/
def codeStart : Nat := 0x20100

/-- How many registers there are. -/
def registerCount : Nat := 4094

/-- The largest alignment a file may ask for. -/
def maxAlign : Nat := 0x10000

/-- The address some bytes behind another; behind the last address comes address 0. -/
def advance (address offset : Nat) : Nat := (address + offset) % addressSpace

/-- The address of a register. -/
def register (n : Nat) : Nat := (n + 2) * registerSize % addressSpace

/-- The registers that exist stand one behind the other. -/
theorem register_of_le {n : Nat} (h : n ≤ registerCount) : register n = (n + 2) * registerSize := by
  have h : n ≤ 4094 := h
  simp only [register, registerSize, addressSpace]
  omega

theorem register_registerCount : register registerCount = addTable := by decide

/-- The least multiple of `align` that is not below `value`, as an address. -/
def alignUp (value align : Nat) : Nat :=
  if align ≤ 1 then value else (value + align - 1) / align * align % addressSpace

end Memory

/-- Where the regions of an image are. -/
structure Layout where
  addTable : Nat
  notTable : Nat
  codeStart : Nat
  /-- the address of the last instruction, which jumps to itself -/
  halt : Nat
  deriving DecidableEq, Repr

end ByteJump
