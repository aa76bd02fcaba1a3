import ByteJump.Proofs.ConstantValues
import ByteJump.Proofs.Emit.RawWords
import Mathlib.Logic.Relation

set_option autoImplicit false

/-!
# Code that is laid down

Emission goes from state to state by small moves.  One lays down a piece that is no constant, or a
constant that was not there before, behind a jump over it; any other one changes nothing of the code.

The primitives of emission only lay down code, also up to a fault, and none of them fails because there
are too few registers.  Most of them lay down no constants.

Two relations between states describe all code that is laid down: `Pushes` for a piece that holds
no data of its own, `Puts` for these and for constants that are placed and remembered.  A
computation that only lays down code is `Laying` one of the two.  The class `Pushing` lets both be
treated at once where no constants are involved.  Everything else that emission does, registers,
labels, points and files, leaves the code as it is, `SameCode`, so that whole programs go by
`Moves`.
-/

namespace ByteJump

open Assembly Memory

/-- There are too few registers. -/
def Fault.isRegisters : Fault → Bool
  | .outOfRegisters .. => true
  | _ => false

namespace Emit

open Relation

variable {α β : Type}

/-! ## Moves

A move is small enough for an invariant of the code to be checked on it, and the moves of a run
are as many as it takes. -/

/-- A piece that is no constant: an instruction, a word, or zeros that a jump leads over. -/
def Inert : Piece → Prop
  | .bytes data => ∃ n, data = List.replicate n 0
  | .instruction .. | .word _ => True

/-- The state with a byte constant laid down. -/
def State.keeping (s : State) (value : UInt8) : State :=
  { s.emit [.instruction 0 0 (.known (s.position + instructionSize + size [.bytes [value]])),
      .bytes [value]] with
    byteConstants := (value, s.position + instructionSize) :: s.byteConstants }

/-- A piece that is no constant is laid down. -/
inductive Pushes : State → State → Prop
  | piece {s : State} {piece : Piece} (h : Inert piece) : Pushes s (s.emit [piece])

/-- One thing more is laid down. -/
inductive Puts : State → State → Prop
  | piece {s t : State} (h : Pushes s t) : Puts s t
  | byte {s : State} {value : UInt8} (h : s.byteConstants.lookup value = none) :
      Puts s (s.keeping value)
  | text {s : State} {text : String} (h : s.strings.lookup text = none) : Puts s (s.pooling text)

/-- Pieces that are no constants may be laid down. -/
class Pushing (R : State → State → Prop) : Prop where
  piece : ∀ {s t : State}, Pushes s t → R s t

instance : Pushing Pushes := ⟨fun h => h⟩

instance : Pushing Puts := ⟨.piece⟩

/-- The code is the same, and so is what is remembered of the constants in it. -/
structure SameCode (s t : State) : Prop where
  pieces : t.pieces = s.pieces
  position : t.position = s.position
  byteConstants : t.byteConstants = s.byteConstants
  strings : t.strings = s.strings

/-- One move of emission. -/
inductive Move : State → State → Prop
  | puts {s t : State} (h : Puts s t) : Move s t
  | same {s t : State} (h : SameCode s t) : Move s t

/-- Some moves of emission, one after the other. -/
abbrev Moves : State → State → Prop := ReflTransGen Move

/-- Code that is laid down goes by moves. -/
theorem moves_of_puts {s t : State} (h : ReflTransGen Puts s t) : Moves s t :=
  ReflTransGen.mono (fun _ _ => .puts) _ _ h

/-- What one more thing adds to the code. -/
theorem Puts.emits {s t : State} (h : Puts s t) : ∃ more,
    t.pieces = (s.emit more).pieces ∧ t.position = (s.emit more).position := by
  rcases h with h | _ | _
  · cases h with
    | piece _ => exact ⟨_, rfl, rfl⟩
  · exact ⟨_, rfl, rfl⟩
  · exact ⟨_, rfl, rfl⟩

/-- Code is only added to. -/
theorem adds_of_moves {s t : State} (h : Moves s t) : ∃ more,
    t.pieces.toList = s.pieces.toList ++ more ∧ t.position = s.position + size more := by
  induction h with
  | refl => exact ⟨[], by simp, by simp [size]⟩
  | tail _ hmove ih =>
      obtain ⟨more, hpieces, hposition⟩ := ih
      cases hmove with
      | same hsame =>
          exact ⟨more, by rw [hsame.pieces, hpieces], by rw [hsame.position, hposition]⟩
      | puts hputs =>
          obtain ⟨more', hpieces', hposition'⟩ := hputs.emits
          refine ⟨more ++ more', ?_, ?_⟩
          · rw [hpieces', toList_emit, hpieces, List.append_assoc]
          · rw [hposition', State.position_emit, hposition, size_append, Nat.add_assoc]

/-- The next piece goes right behind all others. -/
theorem position_of_moves {b : Bindings} {s : State} (h : Moves (.start b) s) :
    s.position = codeStart + size s.pieces.toList := by
  obtain ⟨more, hpieces, hposition⟩ := adds_of_moves h
  have hpieces' : s.pieces.toList = more := by simpa [State.start] using hpieces
  rw [hposition, hpieces']
  rfl

section Steps

variable {R : State → State → Prop}

/-- Pieces that are no constants, one after the other. -/
theorem pushing_emit [Pushing R] {more : List Piece} (h : ∀ piece ∈ more, Inert piece) :
    ∀ s : State, ReflTransGen R s (s.emit more) := by
  induction more with
  | nil =>
      intro s
      rw [State.emit_nil]
  | cons piece more ih =>
      intro s
      have hfirst : R s (s.emit [piece]) := Pushing.piece (.piece (h piece List.mem_cons_self))
      have hrest := ih (fun other hother => h other (List.mem_cons_of_mem _ hother))
        (s.emit [piece])
      rw [State.emit_emit] at hrest
      exact .head hfirst hrest

/-! ## Faults of constants -/

/-- An address is looked up without registers. -/
theorem isRegisters_of_address {s : State} {target : Target} {site : Option Location}
    {fault : Fault} (h : s.address target site = .error fault) : fault.isRegisters = false := by
  unfold State.address at h
  cases target with
  | label label =>
      cases haddress : s.bindings.address? label with
      | some a => simp [haddress] at h
      | none =>
          simp only [haddress, Except.error.injEq] at h
          exact h ▸ rfl
  | point role serial =>
      cases haddress : s.points.lookup serial with
      | some a => simp [haddress] at h
      | none =>
          simp only [haddress, Except.error.injEq] at h
          exact h ▸ rfl

/-- A constant is computed without registers. -/
theorem isRegisters_of_evaluate {s : State} {e : Expr} {fault : Fault}
    (h : Constant.evaluate s.env e = .error fault) : fault.isRegisters = false := by
  obtain ⟨n, -, hfault⟩ := Constant.exists_fault h
  rcases Constant.fault?_cases hfault with
    ⟨text, i, rfl, hx⟩ | ⟨use, i, rfl, hx⟩ | rfl | ⟨type, rfl⟩ | rfl
  · simp only [State.env] at hx
    split at hx <;> cases hx
    rfl
  · simp only [State.env, Constant.ofTarget] at hx
    split at hx
    · rename_i label htarget
      cases haddress : s.address (.label label) (some i.site) with
      | ok a => simp [haddress, Except.map] at hx
      | error e =>
          simp only [haddress, Except.map, Except.error.injEq] at hx
          exact hx ▸ isRegisters_of_address haddress
    · cases hx
      rfl
  · rfl
  · rfl
  · rfl

/-- A constant fails by its labels or by its operators. -/
theorem isRegisters_of_constant {s : State} {value : Expr} {fault : Fault}
    (h : s.constant value = .error fault) : fault.isRegisters = false := by
  unfold State.constant at h
  cases heval : Constant.evaluate s.env value with
  | ok v =>
      rw [heval] at h
      cases h
  | error e =>
      rw [heval] at h
      cases h
      exact isRegisters_of_evaluate heval

/-! ## Code that is only laid down -/

/-- Code is laid down step by step, and a fault is not that there are too few registers. -/
structure Laying (R : State → State → Prop) (x : Emitter α) : Prop where
  run : ∀ s,
    match x s with
    | .ok _ t => ReflTransGen R s t
    | .error e t => ReflTransGen R s t ∧ e.isRegisters = false

theorem Laying.pure {a : α} : Laying R (Pure.pure a : Emitter α) := ⟨fun _ => .refl⟩

theorem Laying.throw {e : Fault} (h : e.isRegisters = false) :
    Laying R (MonadExcept.throw e : Emitter α) := ⟨fun _ => ⟨.refl, h⟩⟩

/-- What both parts lay down, one behind the other. -/
theorem Laying.bind {x : Emitter β} {f : β → Emitter α} (h : Laying R x)
    (hf : ∀ b, Laying R (f b)) : Laying R (x >>= f) := by
  refine ⟨fun s => ?_⟩
  have hx := h.run s
  cases hrun : x s with
  | error e t =>
      rw [hrun] at hx
      rw [run_bind_error hrun]
      exact hx
  | ok b t =>
      rw [hrun] at hx
      rw [run_bind hrun]
      have hrest := (hf b).run t
      dsimp only at hx ⊢
      split
      · rename_i heq
        rw [heq] at hrest
        exact hx.trans hrest
      · rename_i heq
        rw [heq] at hrest
        exact ⟨hx.trans hrest.1, hrest.2⟩

theorem Laying.get {f : State → Emitter α} (h : ∀ s, Laying R (f s)) :
    Laying R (MonadState.get >>= f) := ⟨fun s => (h s).run s⟩

theorem Laying.position {f : Nat → Emitter α} (h : ∀ n, Laying R (f n)) :
    Laying R (Emit.position >>= f) := ⟨fun s => (h s.position).run s⟩

/-- Where it is known what a computation does, the states can be compared. -/
theorem Laying.of_run {x : Emitter α} {a : State → α} {t : State → State}
    (h : ∀ s, x s = .ok (a s) (t s)) (ht : ∀ s, ReflTransGen R s (t s)) : Laying R x := by
  refine ⟨fun s => ?_⟩
  rw [h]
  exact ht s

/-- Pieces that are no constants are laid down. -/
theorem Laying.of_emit [Pushing R] {x : Emitter α} {a : State → α} {more : State → List Piece}
    (h : ∀ s, x s = .ok (a s) (s.emit (more s))) (hmore : ∀ s, ∀ piece ∈ more s, Inert piece) :
    Laying R x := .of_run h fun s => pushing_emit (hmore s) s

/-! ## Primitives -/

theorem widthOf_laying (type : Ty) (site : Location) : Laying R (widthOf type site) := by
  unfold widthOf
  cases type.width with
  | some width => exact .pure
  | none => exact .throw rfl

section Pushing

variable [Pushing R]

theorem instruction_laying (source destination next : Nat) :
    Laying R (instruction source destination next) :=
  .of_emit (run_instruction source destination next) fun _ => by simp [Inert]

/-- A piece without data is one step. -/
theorem push_laying {piece : Piece} (h : Inert piece) : Laying R (push piece) :=
  .of_emit (run_push piece) fun _ => by simpa using h

theorem forM_push_laying {pieces : List Piece} (h : ∀ piece ∈ pieces, Inert piece) :
    Laying R (pieces.forM push) := .of_emit (run_forM_push pieces) fun _ => h

theorem copy_laying (source destination : Nat) : Laying R (copy source destination) :=
  .of_emit (run_copy source destination) fun _ => by simp [Inert]

/-- By induction on the length. -/
theorem copyRange_laying : ∀ length source destination,
    Laying R (copyRange source destination length)
  | 0, _, _ => .pure
  | length + 1, source, destination =>
      (copy_laying source destination).bind fun _ => copyRange_laying length _ _

/-- The jump and the pieces behind it. -/
theorem jumpOver_laying {pieces : List Piece} (h : ∀ piece ∈ pieces, Inert piece) :
    Laying R (jumpOver pieces) :=
  .of_emit (run_jumpOver pieces) fun s piece hpiece => by
    rcases List.mem_cons.mp hpiece with rfl | hrest
    · trivial
    · exact h piece hrest

theorem inert_zeros (n : Nat) : Inert (.bytes (List.replicate n 0)) := ⟨n, rfl⟩

theorem jumpOverAligned_laying (align : Nat) {pieces : List Piece}
    (h : ∀ piece ∈ pieces, Inert piece) : Laying R (jumpOverAligned align pieces) :=
  .position fun _ => (instruction_laying _ _ _).bind fun _ =>
    (push_laying (inert_zeros _)).bind fun _ => (forM_push_laying h).bind fun _ => .pure

theorem patchPieces_inert (target : Nat) : ∀ (fields : List (Nat × Nat)) (start : Nat),
    ∀ piece ∈ patchPieces target start fields, Inert piece
  | [], _, _, h => nomatch h
  | (source, offset) :: rest, start, piece, h => by
      rcases List.mem_cons.mp h with rfl | hrest
      · trivial
      · exact patchPieces_inert target rest _ piece hrest

theorem patches_laying (target : Nat) (fields : List (Nat × Nat)) :
    Laying R (patches target fields) :=
  .of_emit (run_patches target fields) fun s => patchPieces_inert target fields s.position

theorem patched_laying (fields : List (Nat × Nat)) (source destination : Nat) :
    Laying R (patched fields source destination) := by
  refine .of_emit (run_patched fields source destination) fun s piece hpiece => ?_
  rcases List.mem_append.mp hpiece with hpatch | hlast
  · exact patchPieces_inert _ fields _ piece hpatch
  · rw [List.mem_singleton.mp hlast]
    trivial

theorem jumpTo_laying (target : Target) : Laying R (jumpTo target) :=
  push_laying (show Inert (.instruction 0 0 (.address target none)) from trivial)

theorem countZeros_laying (total flag : Nat) : ∀ count i, Laying R (countZeros total flag count i)
  | 0, _ => .pure
  | count + 1, i =>
      (patched_laying _ _ _).bind fun _ => (patched_laying _ _ _).bind fun _ =>
        countZeros_laying total flag count (i + 1)

theorem select_laying (table jump : Nat) : ∀ count i, Laying R (select table jump count i)
  | 0, _ => .pure
  | count + 1, i =>
      .position fun _ => (patched_laying _ _ _).bind fun _ =>
        (instruction_laying _ _ _).bind fun _ => select_laying table jump count (i + 1)

theorem word_laying (word : Word) : Laying R (push (.word word)) := push_laying trivial

/-- By induction on the words. -/
theorem words_laying : ∀ values : List Expr, Laying R (words values)
  | [] => .pure
  | value :: values => by
      rw [words]
      split
      · exact (word_laying _).bind fun _ => words_laying values
      · refine .get fun s => ?_
        cases hvalue : s.constant value with
        | ok n => exact (word_laying _).bind fun _ => words_laying values
        | error fault =>
            exact (Laying.throw (isRegisters_of_constant hvalue)).bind fun _ => words_laying values

theorem alignTo_laying (align : Nat) : Laying R (alignTo align) := by
  refine .position fun here => ?_
  split
  · refine Laying.bind (jumpOver_laying ?_) fun _ => .pure
    simp [Inert]
  · exact .pure

theorem labelWord_laying (label : Label) (site : Location) :
    Laying R (jumpOver [.word (.address (.label label) (some site))]) :=
  jumpOver_laying fun _ h => by rw [List.mem_singleton.mp h]; trivial

/-- What a condition is turned into behind the test of its value: a table of two addresses and the
code that chooses one. -/
theorem branchTable_laying (taken otherwise : Target) :
    Laying R (do
      let table ← jumpOverAligned 16
        [.word (.address taken none), .word (.address otherwise none)]
      let jump := (← position) + addressSize * 3 * instructionSize
      select table jump addressSize 0
      instruction 0 0 0) := by
  refine (jumpOverAligned_laying 16 fun piece hpiece => ?_).bind fun table => .position fun _ =>
    (select_laying _ _ _ _).bind fun _ => instruction_laying _ _ _
  have hword : piece = .word (.address taken none) ∨ piece = .word (.address otherwise none) := by
    simpa using hpiece
  rcases hword with rfl | rfl <;> trivial

theorem goto_laying :
    Laying R (do
      let fields := wholeField immediate nextField
      patches (← behindPatches fields.length) fields
      instruction 0 0 0) := by
  refine Laying.bind (x := behindPatches _) (.position fun _ => .pure) fun _ => ?_
  exact (patches_laying _ _).bind fun _ => instruction_laying _ _ _

end Pushing

end Steps

/-! ## Constants

A constant that was placed before is found again, and nothing is laid down.  Otherwise it is
placed behind a jump over it and remembered. -/

/-- The byte is remembered. -/
theorem run_byteConstant_pooled {s : State} {value : UInt8} {a : Nat}
    (h : s.byteConstants.lookup value = some a) : byteConstant value s = .ok a s := by
  have hget : (get : Emitter State) s = .ok s s := rfl
  unfold byteConstant
  rw [run_bind hget, h]
  rfl

/-- The byte is placed now. -/
theorem run_byteConstant_fresh {s : State} {value : UInt8}
    (h : s.byteConstants.lookup value = none) :
    byteConstant value s = .ok (s.position + instructionSize) (s.keeping value) := by
  have hget : (get : Emitter State) s = .ok s s := rfl
  unfold byteConstant
  rw [run_bind hget, h]
  dsimp only
  rw [run_bind (run_jumpOver _ s)]
  rfl

theorem byteConstant_laying (value : UInt8) : Laying Puts (byteConstant value) := by
  refine ⟨fun s => ?_⟩
  cases hlookup : s.byteConstants.lookup value with
  | some a =>
      rw [run_byteConstant_pooled hlookup]
  | none =>
      rw [run_byteConstant_fresh hlookup]
      exact .single (.byte hlookup)

theorem stringConstant_laying (text : String) : Laying Puts (stringConstant text) := by
  refine ⟨fun s => ?_⟩
  cases hlookup : s.strings.lookup text with
  | some a =>
      rw [run_stringConstant_pooled hlookup]
  | none =>
      rw [run_stringConstant_fresh hlookup]
      exact .single (.text hlookup)

theorem setByte_laying (destination : Nat) (value : UInt8) : Laying Puts (setByte destination value) :=
  (byteConstant_laying value).bind fun _ => copy_laying _ _

/-- By induction on the number of bytes. -/
theorem setBytes_laying : ∀ length destination value, Laying Puts (setBytes destination length value)
  | 0, _, _ => .pure
  | length + 1, destination, _ =>
      (setByte_laying destination _).bind fun _ => setBytes_laying length _ _

theorem clearFrom_laying (width : Nat) : Laying Puts (clearFrom width) := setBytes_laying _ _ _

theorem forM_stringConstant_laying : ∀ texts : List String,
    Laying Puts (texts.forM fun text => do let _ ← stringConstant text)
  | [] => .pure
  | text :: texts =>
      ((stringConstant_laying text).bind fun _ => .pure).bind fun _ =>
        forM_stringConstant_laying texts

theorem rawWords_laying (values : List Expr) : Laying Puts (rawWords values) :=
  (forM_stringConstant_laying _).bind fun _ => words_laying values

end Emit

end ByteJump
