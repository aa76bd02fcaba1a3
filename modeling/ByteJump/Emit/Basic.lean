import ByteJump.Assembly

set_option autoImplicit false

/-!
# Emitting code: state and primitives

Code is emitted piece by piece.  Registers are handed out in order, and whoever no longer needs
those from a mark on sets the mark back.  A byte constant is laid down behind a jump over it the
first time it is needed and shared from then on, and so is a string.

Addresses of labels and registers of variables are bindings.  They outlive the generation of one
image: a label keeps its address until it is placed again.
-/

namespace ByteJump

/-- The addresses of labels and the registers of variables, the newest first. -/
structure Bindings where
  addresses : List (DeclId × Nat)
  registers : List (DeclId × Nat)
  deriving Repr

namespace Bindings

/-- Nothing is bound. -/
def none : Bindings := ⟨[], []⟩

/-- The address of a label. -/
def address? (b : Bindings) (label : Label) : Option Nat := b.addresses.lookup label.id

/-- The first register of a variable. -/
def register? (b : Bindings) (v : Variable) : Option Nat := b.registers.lookup v.id

/-- A label placed at an address. -/
def place (b : Bindings) (label : Label) (address : Nat) : Bindings :=
  { b with addresses := (label.id, address) :: b.addresses }

/-- A variable bound to a register. -/
def bind (b : Bindings) (v : Variable) (register : Nat) : Bindings :=
  { b with registers := (v.id, register) :: b.registers }

end Bindings

namespace Emit

open Assembly Memory

/-- What is known while code is emitted. -/
structure State where
  /-- the pieces so far -/
  pieces : Array Piece
  /-- the address of the next piece -/
  position : Nat
  /-- the first register that is free -/
  mark : Nat
  /-- the largest mark so far -/
  highest : Nat
  /-- the addresses of byte constants -/
  byteConstants : List (UInt8 × Nat)
  /-- the addresses of strings -/
  strings : List (String × Nat)
  /-- the files placed so far that are placed only once -/
  placed : List Path.Key
  /-- the address of the first label that names the entry -/
  entry : Option Nat
  /-- the addresses of points -/
  points : List (Nat × Nat)
  /-- how many points there are -/
  serial : Nat
  bindings : Bindings

/-- A computation that emits code; the state outlives a fault. -/
abbrev Emitter (α : Type) : Type := EStateM Fault State α

/-- The state before any code. -/
def State.start (bindings : Bindings) : State where
  pieces := #[]
  position := codeStart
  mark := 0
  highest := 0
  byteConstants := []
  strings := []
  placed := []
  entry := none
  points := []
  serial := 0
  bindings := bindings

/-! ## Pieces -/

/-- The address of the next piece. -/
def position : Emitter Nat := return (← get).position

/-- One more piece. -/
def push (piece : Piece) : Emitter Unit :=
  modify fun s =>
    { s with pieces := s.pieces.push piece, position := s.position + piece.size }

/-- An instruction with a known successor. -/
def instruction (source destination next : Nat) : Emitter Unit :=
  push (.instruction source destination (.known next))

/-- A copy of one byte that goes on behind itself. -/
def copy (source destination : Nat) : Emitter Unit := do
  instruction source destination ((← position) + instructionSize)

/-- A copy of some bytes, from the first to the last. -/
def copyRange (source destination : Nat) : Nat → Emitter Unit
  | 0 => return ()
  | length + 1 => do
      copy source destination
      copyRange (source + 1) (destination + 1) length

/-- A jump over pieces that are laid down behind it; their address. -/
def jumpOver (pieces : List Piece) : Emitter Nat := do
  let start := (← position) + instructionSize
  instruction 0 0 (start + Assembly.size pieces)
  pieces.forM push
  return start

/-- A jump over pieces that start at a multiple of `align`; their address. -/
def jumpOverAligned (align : Nat) (pieces : List Piece) : Emitter Nat := do
  let behind := (← position) + instructionSize
  let start := alignUp behind align
  instruction 0 0 (start + Assembly.size pieces)
  push (.bytes (List.replicate (start - behind) 0))
  pieces.forM push
  return start

/-! ## Constants -/

/-- The address of a byte with the given value. -/
def byteConstant (value : UInt8) : Emitter Nat := do
  match (← get).byteConstants.lookup value with
  | some address => return address
  | none => do
      let address ← jumpOver [.bytes [value]]
      modify fun s => { s with byteConstants := (value, address) :: s.byteConstants }
      return address

/-- The address of the bytes of a string. -/
def stringConstant (text : String) : Emitter Nat := do
  match (← get).strings.lookup text with
  | some address => return address
  | none => do
      let address ← jumpOver [.bytes text.toUTF8.toList]
      modify fun s => { s with strings := (text, address) :: s.strings }
      return address

/-- A byte set to a value. -/
def setByte (destination : Nat) (value : UInt8) : Emitter Unit := do
  let source ← byteConstant value
  copy source destination

/-- The low bytes of a number, least significant first. -/
def setBytes (destination : Nat) : Nat → Nat → Emitter Unit
  | 0, _ => return ()
  | length + 1, value => do
      setByte destination (UInt8.ofNat (value % 256))
      setBytes (destination + 1) length (value / 256)

/-- The bytes of the immediate register from `width` on set to zero. -/
def clearFrom (width : Nat) : Emitter Unit :=
  setBytes (immediate + width) (registerSize - width) 0

/-! ## Instructions that are changed when they are reached -/

/-- Copies into fields of the instruction right behind them, one for each pair of a source and an
offset into the instruction; `target` is the address of that instruction. -/
def patches (target : Nat) : List (Nat × Nat) → Emitter Unit
  | [] => return ()
  | (source, offset) :: rest => do
      copy source (target + offset)
      patches target rest

/-- The address of the instruction behind `count` copies. -/
def behindPatches (count : Nat) : Emitter Nat :=
  return (← position) + count * instructionSize

/-- Copies into fields of an instruction, then the instruction, which goes on behind itself. -/
def patched (fields : List (Nat × Nat)) (source destination : Nat) : Emitter Unit := do
  let target ← behindPatches fields.length
  patches target fields
  instruction source destination (target + instructionSize)

/-- Copies of the eight bytes at `source` into an address field. -/
def wholeField (source field : Nat) : List (Nat × Nat) :=
  (List.range addressSize).map fun i => (source + i, field + i)

/-! ## Registers -/

/-- The first of `count` registers in a row that are free. -/
def allocate (count : Nat) (site : Location) : Emitter Nat := do
  let base := (← get).mark
  let mark := base + count
  if mark ≤ registerCount then do
    modify fun s => { s with mark := mark, highest := max s.highest mark }
    return base
  else throw (.outOfRegisters registerCount (some site))

/-- The mark set back to where it was. -/
def release (mark : Nat) : Emitter Unit := modify fun s => { s with mark := mark }

/-! ## Labels and points -/

/-- The name of the label a run starts at, without the dots in front. -/
def entryName : String := "_start"

/-- The label is exported and named as the entry. -/
def isEntry (label : Label) : Bool :=
  label.exported && String.ofList (label.name.toList.dropWhile (· = '.')) = entryName

/-- A label placed here; the first one named as the entry is the entry. -/
def placeLabel (label : Label) : Emitter Unit :=
  modify fun s =>
    { s with
      bindings := s.bindings.place label s.position,
      entry := if isEntry label then s.entry <|> some s.position else s.entry }

/-- A new point. -/
def newPoint (role : String) : Emitter Target := do
  let serial := (← get).serial + 1
  modify fun s => { s with serial := serial }
  return .point role serial

/-- A target placed here. -/
def place : Target → Emitter Unit
  | .label label => placeLabel label
  | .point _ serial =>
      modify fun s => { s with points := (serial, s.position) :: s.points }

/-- A jump to a target. -/
def jumpTo (target : Target) : Emitter Unit := push (.instruction 0 0 (.address target none))

/-! ## Values of symbols -/

/-- The fault of a label that is not placed. -/
def unplaced (label : Label) (site : Option Location) : Fault :=
  .unresolvedLabel label.name (site.getD label.site)

/-- The address of a target, used at a site. -/
def State.address (s : State) (target : Target) (site : Option Location) : Except Fault Nat :=
  match target with
  | .label label =>
      match s.bindings.address? label with
      | some address => .ok address
      | none => .error (unplaced label site)
  | .point role serial =>
      match s.points.lookup serial with
      | some address => .ok address
      | none =>
          .error (.internal
            ("label `" ++ role ++ "." ++ toString serial ++ "` was never placed"))

/-- What labels and strings are worth in constants. -/
def State.env (s : State) : Constant.Env where
  label := Constant.ofTarget fun label site =>
    (s.address (.label label) (some site)).map (BitVec.ofNat 128)
  string text site :=
    match s.strings.lookup text with
    | some address => .ok (BitVec.ofNat 128 address)
    | none => .error (.notConstant site)

/-- The low 64 bits of a constant. -/
def State.constant (s : State) (value : Expr) : Except Fault Nat :=
  (Constant.evaluate s.env value).map fun v => v.toNat % addressSpace

/-- The value of a word. -/
def State.word (s : State) : Word → Except Fault Nat
  | .known value => .ok value
  | .address target site => s.address target site
  | .constant value => s.constant value

end Emit

end ByteJump
