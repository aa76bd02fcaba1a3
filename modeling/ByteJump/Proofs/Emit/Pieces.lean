import ByteJump.Emit.Stmt
import Mathlib.Tactic.Ring

set_option autoImplicit false

/-!
# Pieces that are laid down

The primitives of emitting add known pieces to a state and leave the rest of it as it is.  What
pieces write to when they run is fixed when they are laid down, but for the instructions whose
destination is copied into them.

The equations `run_…` compute each primitive: they say which pieces it adds to the state and what
its result is.  All modules on emission start from these, so that no later proof opens the
definition of a primitive.  `State.emit` adds pieces and nothing else; `Kept` says what such code
leaves alone, which is all but the pieces, the position and the pools.
-/

namespace ByteJump

open Assembly Memory

namespace Assembly

/-! ## What pieces write to -/

/-- What the instructions among pieces write to. -/
def destinations (pieces : List Piece) : List Nat :=
  pieces.filterMap fun piece =>
    match piece with
    | .instruction _ destination _ => some destination
    | .bytes _ | .word _ => none

/-- Each piece has its own destinations. -/
theorem destinations_append (before behind : List Piece) :
    destinations (before ++ behind) = destinations before ++ destinations behind :=
  List.filterMap_append

theorem mem_destinations {source destination : Nat} {next : Word} {pieces : List Piece}
    (h : .instruction source destination next ∈ pieces) : destination ∈ destinations pieces :=
  List.mem_filterMap.mpr ⟨_, h, rfl⟩

/-! ## Instructions behind copies into them

A patched instruction is a row of copies, one for each byte that is filled in, and the instruction
itself. -/

/-- The copies into an instruction at `target`, laid down at an address. -/
def patchPieces (target : Nat) : Nat → List (Nat × Nat) → List Piece
  | _, [] => []
  | start, (source, offset) :: rest =>
      .instruction source (target + offset) (.known (start + instructionSize)) ::
        patchPieces target (start + instructionSize) rest

/-- Copies into an instruction and the instruction, laid down at an address. -/
def patchedPieces (start : Nat) (fields : List (Nat × Nat)) (source destination : Nat) :
    List Piece :=
  patchPieces (start + fields.length * instructionSize) start fields ++
    [.instruction source destination
      (.known (start + fields.length * instructionSize + instructionSize))]

theorem size_patchPieces (target : Nat) : ∀ (fields : List (Nat × Nat)) (start : Nat),
    size (patchPieces target start fields) = fields.length * instructionSize
  | [], _ => by simp [patchPieces, size]
  | (source, offset) :: rest, start => by
      have hrest := size_patchPieces target rest (start + instructionSize)
      simp only [size] at hrest
      simp only [patchPieces, size, List.map_cons, List.sum_cons, hrest, List.length_cons,
        Piece.size]
      ring

/-- Each copy is an instruction, and there is one more. -/
theorem size_patchedPieces (start : Nat) (fields : List (Nat × Nat)) (source destination : Nat) :
    size (patchedPieces start fields source destination) =
      fields.length * instructionSize + instructionSize := by
  rw [patchedPieces, size_append, size_patchPieces]
  simp [size, Piece.size]

/-- A copy writes to the field it fills in. -/
theorem destinations_patchPieces (target : Nat) : ∀ (fields : List (Nat × Nat)) (start : Nat),
    destinations (patchPieces target start fields) = fields.map fun field => target + field.2
  | [], _ => rfl
  | (source, offset) :: rest, start => by
      have hrest := destinations_patchPieces target rest (start + instructionSize)
      simp only [destinations] at hrest
      simp only [destinations, patchPieces, List.filterMap_cons, List.map_cons, hrest]

theorem destinations_patchedPieces (start : Nat) (fields : List (Nat × Nat))
    (source destination : Nat) :
    destinations (patchedPieces start fields source destination) =
      (fields.map fun field => start + fields.length * instructionSize + field.2) ++
        [destination] := by
  rw [patchedPieces, destinations_append, destinations_patchPieces]
  rfl

end Assembly

namespace Emit

variable {α β : Type}

/-! ## Pieces added -/

/-- A state with more pieces. -/
def State.emit (s : State) (more : List Piece) : State :=
  { s with pieces := s.pieces ++ more.toArray, position := s.position + size more }

theorem State.mark_emit (s : State) (more : List Piece) : (s.emit more).mark = s.mark := rfl

theorem State.position_emit (s : State) (more : List Piece) :
    (s.emit more).position = s.position + size more := rfl

theorem State.emit_nil (s : State) : s.emit [] = s := by simp [emit, size]

/-- Pieces that are added in two steps are added in one. -/
theorem State.emit_emit (s : State) (more more' : List Piece) :
    (s.emit more).emit more' = s.emit (more ++ more') := by
  simp only [emit, size_append, Nat.add_assoc, Array.append_assoc, List.append_toArray]

/-- A computation that ends well hands its result on. -/
theorem run_bind {x : Emitter β} {f : β → Emitter α} {s u : State} {b : β} (h : x s = .ok b u) :
    (x >>= f) s = f b u := by
  rw [show (x >>= f) s = _ from EStateM.run_bind x f, EStateM.run, h]
  rfl

theorem run_bind_error {x : Emitter β} {f : β → Emitter α} {e : Fault} {s u : State}
    (h : x s = .error e u) : (x >>= f) s = .error e u := by
  rw [show (x >>= f) s = _ from EStateM.run_bind x f, EStateM.run, h]

theorem run_push (piece : Piece) (s : State) : push piece s = .ok () (s.emit [piece]) := by
  have hpieces : s.pieces.push piece = s.pieces ++ [piece].toArray := by simp
  have hsize : piece.size = size [piece] := by simp [size]
  show EStateM.Result.ok () { s with pieces := _, position := s.position + piece.size } = _
  rw [hpieces, hsize]
  rfl

/-- By induction on the pieces. -/
theorem run_forM_push : ∀ (pieces : List Piece) (s : State),
    (pieces.forM push) s = .ok ⟨⟩ (s.emit pieces)
  | [], s => by
      rw [State.emit_nil]
      rfl
  | piece :: pieces, s => by
      show (push piece >>= fun _ => pieces.forM push) s = _
      rw [run_bind (run_push piece s), run_forM_push pieces, State.emit_emit]
      rfl

theorem run_instruction (source destination next : Nat) (s : State) :
    instruction source destination next s =
      .ok () (s.emit [.instruction source destination (.known next)]) := run_push _ s

theorem run_copy (source destination : Nat) (s : State) :
    copy source destination s =
      .ok () (s.emit [.instruction source destination (.known (s.position + instructionSize))]) :=
  run_instruction _ _ _ s

/-- The pieces stand behind the jump, so that is their address. -/
theorem run_jumpOver (pieces : List Piece) (s : State) :
    jumpOver pieces s = .ok (s.position + instructionSize)
      (s.emit (.instruction 0 0 (.known (s.position + instructionSize + size pieces)) :: pieces)) := by
  show (instruction 0 0 (s.position + instructionSize + size pieces) >>= fun _ =>
    pieces.forM push >>= fun _ => pure (s.position + instructionSize)) s = _
  rw [run_bind (run_instruction _ _ _ s), run_bind (run_forM_push pieces _), State.emit_emit]
  rfl

theorem run_patches (target : Nat) : ∀ (fields : List (Nat × Nat)) (s : State),
    patches target fields s = .ok () (s.emit (patchPieces target s.position fields))
  | [], s => by
      rw [patchPieces, State.emit_nil]
      rfl
  | (source, offset) :: rest, s => by
      rw [patches, run_bind (run_copy _ _ s), run_patches target rest, State.emit_emit]
      rfl

/-- The copies and the instruction they fill in. -/
theorem run_patched (fields : List (Nat × Nat)) (source destination : Nat) (s : State) :
    patched fields source destination s =
      .ok () (s.emit (patchedPieces s.position fields source destination)) := by
  show (patches (s.position + fields.length * instructionSize) fields >>= fun _ =>
    instruction source destination
      (s.position + fields.length * instructionSize + instructionSize)) s = _
  rw [run_bind (run_patches _ fields s), run_instruction, State.emit_emit]
  rfl

theorem toList_emit (s : State) (more : List Piece) :
    (s.emit more).pieces.toList = s.pieces.toList ++ more := by simp [State.emit]

/-! ## What stays -/

/-- What names mean and what was placed is the same. -/
structure Kept (s t : State) : Prop where
  bindings : t.bindings = s.bindings
  placed : t.placed = s.placed
  points : t.points = s.points
  serial : t.serial = s.serial
  entry : t.entry = s.entry

theorem Kept.refl (s : State) : Kept s s := ⟨rfl, rfl, rfl, rfl, rfl⟩

theorem Kept.trans {s t u : State} (h : Kept s t) (h' : Kept t u) : Kept s u :=
  ⟨h'.bindings.trans h.bindings, h'.placed.trans h.placed, h'.points.trans h.points,
    h'.serial.trans h.serial, h'.entry.trans h.entry⟩

theorem Kept.emit (s : State) (more : List Piece) : Kept s (s.emit more) :=
  ⟨rfl, rfl, rfl, rfl, rfl⟩

/-! ## Registers -/

theorem register_eq {n : Nat} (h : n < registerCount) :
    register n = (n + 2) * registerSize ∧ immediate + registerSize ≤ register n ∧
      register n + registerSize ≤ addTable := by
  have heq := register_of_le (Nat.le_of_lt h)
  have hless : n < 4094 := h
  refine ⟨heq, ?_, ?_⟩ <;> rw [heq] <;> simp only [registerSize, immediate, addTable] <;> omega

theorem register_lt {n : Nat} (h : n < registerCount) : register n < addTable := by
  obtain ⟨-, -, hhigh⟩ := register_eq h
  exact Nat.lt_of_lt_of_le (Nat.lt_add_of_pos_right (by decide)) hhigh

/-- Registers lie in the order of their numbers. -/
theorem register_mono {m n : Nat} (h : m ≤ n) (hn : n ≤ registerCount) : register m ≤ register n := by
  rw [register_of_le hn, register_of_le (Nat.le_trans h hn)]
  exact Nat.mul_le_mul_right _ (by omega)

/-- Registers lie one behind the other. -/
theorem register_succ {n : Nat} (h : n < registerCount) :
    register (n + 1) = register n + registerSize := by
  have hnext : n + 1 ≤ registerCount := h
  rw [register_of_le hnext, register_of_le (Nat.le_of_lt h)]
  ring

end Emit

end ByteJump
