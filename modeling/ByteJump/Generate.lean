import ByteJump.Emit.Stmt

set_option autoImplicit false

/-!
# Generating images

The image of a program is the header, the tables and the linked code of its statements, with a halt
behind them.
-/

namespace ByteJump

/-- Counts that describe an image. -/
structure Stats where
  instructions : Nat
  /-- the most registers in use at once -/
  registers : Nat
  /-- different byte constants -/
  bytes : Nat
  /-- different strings -/
  strings : Nat
  /-- words that were symbols -/
  symbols : Nat
  deriving DecidableEq, Repr

/-- An image and its counts. -/
structure Artifact where
  image : Image
  stats : Stats
  deriving DecidableEq, Repr

namespace Emit

open Memory

/-! ## The fixed part of an image -/

/-- The addition table. -/
def addTableBytes : Array UInt8 :=
  Array.ofFn fun i : Fin addTableSize => UInt8.ofNat (i.val / 256 + i.val % 256)

/-- The logical-not page. -/
def notTableBytes : Array UInt8 :=
  #[UInt8.ofNat Constant.truth] ++ Array.replicate (notTableSize - 1) 0

/-- Everything in front of the code. -/
def preamble (entry : Nat) : Array UInt8 :=
  (Assembly.wordBytes entry).toArray ++ Array.replicate (addTable - addressSize) 0
    ++ addTableBytes ++ notTableBytes

/-- The code starts right behind the preamble, wherever a run starts. -/
theorem size_preamble (entry : Nat) : (preamble entry).size = codeStart := by
  simp [preamble, addTableBytes, notTableBytes, Assembly.length_wordBytes, addressSize, addTable,
    addTableSize, notTableSize, codeStart]

/-! ## The image -/

/-- The counts of a finished state. -/
def State.stats (s : State) : Stats where
  instructions := s.pieces.toList.countP Assembly.Piece.isInstruction
  registers := s.highest
  bytes := s.byteConstants.length
  strings := s.strings.length
  symbols := s.pieces.toList.countP Assembly.Piece.hasSymbol

/-- The image of a finished state, which ends with the halt at `halt`. -/
def State.finish (s : State) (halt : Nat) : Except Fault Artifact := do
  let code ← Assembly.link s.word s.pieces.toList
  let bytes := preamble (s.entry.getD codeStart) ++ code
  return ⟨⟨bytes, ⟨addTable, notTable, codeStart, halt⟩⟩, s.stats⟩

/-- All code of a program, with the halt behind it; the address of the halt. -/
def code (statements : List Stmt) : Emitter Nat := do
  stmts statements
  let halt ← position
  instruction 0 0 halt
  return halt

end Emit

/-- The image of a program, and the bindings after its code was emitted on top of earlier ones. -/
def Program.generate (program : Program) (bindings : Bindings) :
    Except Fault Artifact × Bindings :=
  match (Emit.code program.statements).run (.start bindings) with
  | .ok halt s => (s.finish halt, s.bindings)
  | .error fault s => (.error fault, s.bindings)

end ByteJump
