import ByteJump.Fault
import ByteJump.Image

set_option autoImplicit false

/-!
# The machine

The machine has one instruction: copy the byte at one address to another and go on at a third.  A
step reads all three addresses first, so an instruction that overwrites itself does so for the next
time.  An instruction whose successor is itself halts the machine.  Addresses have 64 bits; an
address outside the memory is a fault and leaves the machine as it was.
-/

namespace ByteJump

/-- The machine: its memory, the address of the next instruction, how many instructions it has
done, and whether it has halted. -/
structure Machine where
  memory : Array UInt8
  pc : Nat
  steps : Nat
  halted : Bool
  deriving DecidableEq, Repr

namespace Machine

/-- Bytes of memory behind the image. -/
def scratchSize : Nat := 0x10000

/-- How many steps a run takes if nobody says otherwise. -/
def defaultLimit : Nat := 10000000

/-- A machine with the bytes in its memory and scratch memory behind them. -/
def ofBytes (bytes : Array UInt8) : Machine :=
  let memory := bytes ++ Array.replicate scratchSize 0
  ⟨memory, (Bytes.word? memory Memory.entryAddress).getD 0, 0, false⟩

/-- A machine that runs an image. -/
def ofImage (image : Image) : Machine := ofBytes image.bytes

/-! ## Steps -/

/-- A field of the instruction at `pc`. -/
def field (m : Machine) (offset : Nat) : Except Fault Nat :=
  let address := Memory.advance m.pc offset
  match Bytes.word? m.memory address with
  | some word => .ok word
  | none => .error (.outOfBounds m.pc address)

/-- What one instruction does: the addresses it copies from and to, and its successor. -/
structure Copy where
  source : Nat
  destination : Nat
  next : Nat
  deriving DecidableEq, Repr

/-- The instruction at `pc`, if it and both addresses it copies between lie in the memory. -/
def fetch (m : Machine) : Except Fault Copy := do
  let source ← m.field Memory.sourceField
  let destination ← m.field Memory.destinationField
  let next ← m.field Memory.nextField
  if m.memory.size ≤ source then .error (.outOfBounds m.pc source)
  else if m.memory.size ≤ destination then .error (.outOfBounds m.pc destination)
  else .ok ⟨source, destination, next⟩

/-- The machine after an instruction. -/
def perform (m : Machine) (copy : Copy) : Machine :=
  let byte := m.memory.getD copy.source 0
  { memory := m.memory.setIfInBounds copy.destination byte,
    pc := copy.next, steps := m.steps + 1, halted := copy.next = m.pc }

theorem size_memory_perform (m : Machine) (copy : Copy) :
    (m.perform copy).memory.size = m.memory.size := by
  simp [perform]

/-- The machine after one step; a halted machine stays as it is. -/
def step (m : Machine) : Except Fault Machine :=
  if m.halted then .ok m
  else
    match m.fetch with
    | .ok copy => .ok (m.perform copy)
    | .error fault => .error fault

/-! ## Runs -/

/-- The machine after at most `fuel` steps, and the fault that stopped it before it halted: one of
a step, or `limit` when the steps are used up. -/
def runFor (limit : Nat) : Nat → Machine → Machine × Option Fault
  | 0, m => (m, if m.halted then none else some (.stepLimit limit))
  | fuel + 1, m =>
      if m.halted then (m, none)
      else
        match m.fetch with
        | .ok copy => runFor limit fuel (m.perform copy)
        | .error fault => (m, some fault)

/-- The machine run until it halts or has done `limit` steps in all. -/
def run (m : Machine) (limit : Nat) : Machine × Option Fault :=
  runFor limit (limit - m.steps) m

/-- The machine run until it halts. -/
def runToHalt (m : Machine) : Machine × Option Fault := m.run defaultLimit

/-! ## Looking at the memory -/

/-- The contents of a register. -/
def register? (m : Machine) (n : Nat) : Option Nat :=
  Bytes.number? m.memory (Memory.register n) Memory.registerSize

/-- The contents of the immediate register. -/
def immediate? (m : Machine) : Option Nat :=
  Bytes.number? m.memory Memory.immediate Memory.registerSize

end Machine

end ByteJump
