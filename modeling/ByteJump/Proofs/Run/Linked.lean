import ByteJump.Generate
import ByteJump.Proofs.Emit.Pieces
import ByteJump.Proofs.Run.Steps
import ByteJump.Proofs.Source

set_option autoImplicit false

/-!
# Code in memory

Linked code in memory changes while it runs: an instruction may be the destination of another one
that stands in front of it.  Every other byte of the code stays what it was, since what instructions
write to are fixed addresses, but for bytes stored through a pointer, and those do not reach code.
A byte outside code and tables is data.

`Linked` is code that was given its final form: the pieces, the values of their words, and the
image they make.  For a run, memory is divided into three parts: data, code that instructions
write to, and everything else in code and tables, which stays.  `Intact` says that the last part
is still the image, `Shows` that the first one is as some contents say.  Both are kept by steps of
instructions in the code, and are the invariants of the modules on running code.
-/

namespace ByteJump

open Assembly Memory

namespace Assembly

/-- What pieces write to in code stands among them. -/
def Closed (start : Nat) (pieces : List Piece) : Prop :=
  ∀ a ∈ destinations pieces, a < addTable ∨ start ≤ a ∧ a < start + size pieces

/-- Each part writes to itself or to data. -/
theorem Closed.append {start : Nat} {before behind : List Piece} (h : Closed start before)
    (h' : Closed (start + size before) behind) : Closed start (before ++ behind) := by
  intro a ha
  rw [destinations_append] at ha
  rw [size_append]
  rcases List.mem_append.mp ha with hbefore | hbehind
  · rcases h a hbefore with hlow | hin
    · exact Or.inl hlow
    · exact Or.inr (by omega)
  · rcases h' a hbehind with hlow | hin
    · exact Or.inl hlow
    · exact Or.inr (by omega)

/-- The bytes of a piece, given the values of words. -/
def Piece.fill (value : Word → Nat) : Piece → List UInt8
  | .instruction source destination next =>
      wordBytes source ++ wordBytes destination ++ wordBytes (value next)
  | .bytes data => data
  | .word w => wordBytes (value w)

/-- Filled in, a piece takes the room it takes in the code. -/
theorem Piece.length_fill (value : Word → Nat) (piece : Piece) :
    (piece.fill value).length = piece.size := by
  cases piece <;> simp [fill, size, length_wordBytes, addressSize, instructionSize]

end Assembly

/-- Linked code: its pieces, what their words are worth, and the bytes of the image. -/
structure Linked where
  pieces : List Piece
  value : Word → Nat
  image : Contents
  world : Source.World
  /-- the addresses of points -/
  points : Nat → Nat
  known : ∀ n, value (.known n) = n
  label_value : ∀ label site, value (.address (.label label) site) = world.label label
  point_value : ∀ role serial site, value (.address (.point role serial) site) = points serial
  code : ∀ before piece behind, pieces = before ++ piece :: behind →
    ∀ i (h : i < (piece.fill value).length),
      image (codeStart + Assembly.size before + i) = (piece.fill value)[i]
  sums : ∀ a b, a < 256 → b < 256 → image (addTable + a * 256 + b) = UInt8.ofNat (a + b)
  nots : ∀ a, a < 256 → image (notTable + a) = if a = 0 then UInt8.ofNat Constant.truth else 0
  scratch : world.scratch = codeStart + Assembly.size pieces
  fits : codeStart + Assembly.size pieces + Machine.scratchSize ≤ addressSpace
  careful : world.careful = true

namespace Linked

variable (L : Linked)

/-- The first address behind the code. -/
def stop : Nat := codeStart + Assembly.size L.pieces

/-- How many bytes the memory has. -/
def size : Nat := L.stop + Machine.scratchSize

/-- The address is one of data. -/
def IsData (a : Nat) : Prop := a < addTable ∨ L.stop ≤ a ∧ a < L.size

/-- The tables and the code are those of the image, but for what instructions write to. -/
def Intact (c : Contents) : Prop :=
  ∀ a, addTable ≤ a → a < L.stop → a ∉ destinations L.pieces → c a = L.image a

/-- The data is as given. -/
def Shows (d c : Contents) : Prop := ∀ a, L.IsData a → c a = d a

/-- The byte at an address that is data or does not change. -/
def read (d : Contents) (a : Nat) : UInt8 :=
  if addTable ≤ a ∧ a < L.stop then L.image a else d a

variable {L}

theorem addTable_lt_codeStart : addTable < codeStart := by decide

theorem codeStart_le_stop : codeStart ≤ L.stop := Nat.le_add_right _ _

theorem size_le : L.size ≤ addressSpace := L.fits

theorem value_known {x : Nat} (h : x ≤ L.stop) : L.value (.known x) % addressSpace = x := by
  have hspace := L.size_le
  have hscratch : Machine.scratchSize = 0x10000 := rfl
  unfold size at hspace
  rw [L.known]
  exact Nat.mod_eq_of_lt (by omega)

/-- All in front of the tables is data. -/
theorem isData_of_lt {a : Nat} (h : a < addTable) : L.IsData a := Or.inl h

theorem IsData.lt_size {a : Nat} (h : L.IsData a) : a < L.size := by
  have hcode := addTable_lt_codeStart
  have hstop := L.codeStart_le_stop
  unfold size
  rcases h with hlow | ⟨-, hhigh⟩
  · omega
  · exact hhigh

/-- Data is no code. -/
theorem IsData.not_code {a : Nat} (h : L.IsData a) : ¬ (addTable ≤ a ∧ a < L.stop) := by
  rcases h with hlow | ⟨hhigh, -⟩ <;> omega

/-- Data is read from the contents. -/
theorem read_data {d : Contents} {a : Nat} (h : L.IsData a) : L.read d a = d a :=
  if_neg h.not_code

/-- A byte that no instruction writes to is what it says. -/
theorem eq_read {c d : Contents} {a : Nat} (hintact : L.Intact c) (hshows : L.Shows d c)
    (ha : L.IsData a ∨ addTable ≤ a ∧ a < L.stop ∧ a ∉ destinations L.pieces) :
    c a = L.read d a := by
  rcases ha with hdata | ⟨hlow, hhigh, hkept⟩
  · rw [read_data hdata]
    exact hshows a hdata
  · unfold read
    rw [if_pos ⟨hlow, hhigh⟩]
    exact hintact a hlow hhigh hkept

/-! ## Changes -/

/-- A byte may change if it is data or written to by an instruction. -/
theorem Intact.set {c : Contents} {a : Nat} {v : UInt8} (h : L.Intact c)
    (ha : L.IsData a ∨ a ∈ destinations L.pieces) : L.Intact (c.set a v) := by
  intro b hlow hhigh hkept
  have hne : b ≠ a := by
    rintro rfl
    rcases ha with hdata | hdestination
    · exact hdata.not_code ⟨hlow, hhigh⟩
    · exact hkept hdestination
  rw [Contents.set_of_ne hne]
  exact h b hlow hhigh hkept

/-- Data changes on both sides. -/
theorem Shows.set_data {c d : Contents} {a : Nat} {v : UInt8} (h : L.Shows d c) :
    L.Shows (d.set a v) (c.set a v) := by
  intro b hb
  unfold Contents.set
  rw [h b hb]

/-- A byte of code is not shown. -/
theorem Shows.set_code {c d : Contents} {a : Nat} {v : UInt8} (h : L.Shows d c)
    (ha : addTable ≤ a ∧ a < L.stop) : L.Shows d (c.set a v) := by
  intro b hb
  have hne : b ≠ a := by
    rintro rfl
    exact hb.not_code ha
  rw [Contents.set_of_ne hne]
  exact h b hb

/-! ## Instructions

An instruction in the code does what its fields say when it is reached, and a field to which
nothing writes says what was laid down. -/

section Instruction

variable {before behind : List Piece} {source destination : Nat} {next : Word} {pc : Nat}

theorem stop_eq (hpieces : L.pieces = before ++ .instruction source destination next :: behind)
    (hpc : pc = codeStart + Assembly.size before) : pc + instructionSize ≤ L.stop := by
  unfold stop
  rw [hpieces, size_append, hpc]
  simp only [Assembly.size, List.map_cons, List.sum_cons, Piece.size]
  omega

/-- The bytes of the three words of an instruction. -/
theorem image_instruction
    (hpieces : L.pieces = before ++ .instruction source destination next :: behind)
    (hpc : pc = codeStart + Assembly.size before) :
    (∀ i (h : i < (wordBytes source).length),
      L.image (pc + sourceField + i) = (wordBytes source)[i]) ∧
    (∀ i (h : i < (wordBytes destination).length),
      L.image (pc + destinationField + i) = (wordBytes destination)[i]) ∧
    ∀ i (h : i < (wordBytes (L.value next)).length),
      L.image (pc + nextField + i) = (wordBytes (L.value next))[i] := by
  have hcode := L.code before _ behind hpieces
  simp only [Piece.fill, List.length_append, length_wordBytes, addressSize] at hcode
  subst hpc
  refine ⟨fun i h => ?_, fun i h => ?_, fun i h => ?_⟩ <;>
    simp only [length_wordBytes, addressSize] at h
  · rw [sourceField, Nat.add_zero, hcode i (by omega)]
    rw [List.getElem_append_left (by simp [length_wordBytes, addressSize]; omega),
      List.getElem_append_left (by simp [length_wordBytes, addressSize]; omega)]
  · rw [destinationField, Nat.add_assoc, hcode (8 + i) (by omega)]
    rw [List.getElem_append_left (by simp [length_wordBytes, addressSize]; omega),
      List.getElem_append_right (by simp [length_wordBytes, addressSize])]
    simp [length_wordBytes, addressSize]
  · rw [nextField, Nat.add_assoc, hcode (16 + i) (by omega)]
    rw [List.getElem_append_right (by simp [length_wordBytes, addressSize])]
    simp [length_wordBytes, addressSize]

/-- A word of memory with given bytes. -/
theorem number_wordBytes {c : Contents} {a n : Nat}
    (h : ∀ i (hi : i < (wordBytes n).length), c (a + i) = (wordBytes n)[i]) :
    c.number a addressSize = n % addressSpace := by
  have hnumber := Contents.number_eq_toNat h
  rw [length_wordBytes] at hnumber
  rw [hnumber]
  unfold wordBytes
  rw [Bytes.toNat_ofNat]
  rfl

/-- An instruction does what its fields say by now. -/
theorem step_of_fields {c : Contents} {s n : Nat} {d : Nat}
    (hpieces : L.pieces = before ++ .instruction source destination next :: behind)
    (hpc : pc = codeStart + Assembly.size before)
    (hsource : c.number (pc + sourceField) addressSize = s)
    (hdestination : c.number (pc + destinationField) addressSize = d)
    (hnext : c.number (pc + nextField) addressSize = n) (hs : s < L.size) (hd : d < L.size)
    (hmoves : n ≠ pc) : Step L.size c pc (c.set d (c s)) n := by
  have hfits := stop_eq hpieces hpc
  have hstop : L.stop ≤ L.size := Nat.le_add_right _ _
  refine ⟨by omega, ?_, ?_, hnext, hmoves, ?_⟩
  · rwa [hsource]
  · rwa [hdestination]
  · rw [hsource, hdestination]

/-- A field of an instruction that no other instruction writes to. -/
theorem field_of_kept (field : Nat) {c : Contents} {n : Nat}
    (hpieces : L.pieces = before ++ .instruction source destination next :: behind)
    (hpc : pc = codeStart + Assembly.size before) (hintact : L.Intact c)
    (hfield : field + addressSize ≤ instructionSize)
    (hkept : ∀ i < addressSize, pc + field + i ∉ destinations L.pieces)
    (himage : ∀ i (hi : i < (wordBytes n).length), L.image (pc + field + i) = (wordBytes n)[i]) :
    c.number (pc + field) addressSize = n % addressSpace := by
  have hfits := stop_eq hpieces hpc
  have hcode := addTable_lt_codeStart
  refine number_wordBytes fun i hi => ?_
  have hbound : i < addressSize := by rwa [length_wordBytes] at hi
  rw [hintact _ (by omega) (by omega) (hkept i hbound)]
  exact himage i hi

/-- The fields of an instruction that no other instruction writes to. -/
theorem fields_of_kept {c : Contents}
    (hpieces : L.pieces = before ++ .instruction source destination next :: behind)
    (hpc : pc = codeStart + Assembly.size before) (hintact : L.Intact c)
    (hkept : ∀ i < instructionSize, pc + i ∉ destinations L.pieces)
    (hs : source < L.size) (hd : destination < L.size) :
    c.number (pc + sourceField) addressSize = source ∧
      c.number (pc + destinationField) addressSize = destination ∧
      c.number (pc + nextField) addressSize = L.value next % addressSpace := by
  obtain ⟨hsource, hdestination, hnext⟩ := image_instruction hpieces hpc
  have hsize := L.size_le
  have hkept' : ∀ field, field + addressSize ≤ instructionSize →
      ∀ i < addressSize, pc + field + i ∉ destinations L.pieces := by
    intro field hfield i hi
    rw [Nat.add_assoc]
    exact hkept (field + i) (by omega)
  refine ⟨?_, ?_, ?_⟩
  · rw [field_of_kept _ hpieces hpc hintact (by decide) (hkept' _ (by decide)) hsource]
    exact Nat.mod_eq_of_lt (by omega)
  · rw [field_of_kept _ hpieces hpc hintact (by decide) (hkept' _ (by decide)) hdestination]
    exact Nat.mod_eq_of_lt (by omega)
  · exact field_of_kept _ hpieces hpc hintact (by decide) (hkept' _ (by decide)) hnext

/-- An instruction that no other instruction writes to. -/
theorem step_of_kept {c : Contents}
    (hpieces : L.pieces = before ++ .instruction source destination next :: behind)
    (hpc : pc = codeStart + Assembly.size before) (hintact : L.Intact c)
    (hkept : ∀ i < instructionSize, pc + i ∉ destinations L.pieces)
    (hs : source < L.size) (hd : destination < L.size)
    (hmoves : L.value next % addressSpace ≠ pc) :
    Step L.size c pc (c.set destination (c source)) (L.value next % addressSpace) := by
  obtain ⟨hsource, hdestination, hnext⟩ := fields_of_kept hpieces hpc hintact hkept hs hd
  exact step_of_fields hpieces hpc hsource hdestination hnext hs hd hmoves

/-- A machine halts at an instruction that goes on at itself and copies the first byte to where it
is. -/
theorem runFor_of_halt (limit fuel : Nat) {m : Machine}
    (hpieces : L.pieces = before ++ .instruction 0 0 (.known pc) :: behind)
    (hpc : pc = codeStart + Assembly.size before)
    (hkept : ∀ i < instructionSize, pc + i ∉ destinations L.pieces)
    (hmemory : m.memory.size = L.size) (hintact : L.Intact m.contents) (hat : m.pc = pc)
    (hhalted : m.halted = false) :
    ∃ final, Machine.runFor limit (fuel + 1) m = (final, none) ∧ final.halted = true ∧
      final.pc = pc ∧ final.memory.size = m.memory.size ∧ final.contents = m.contents := by
  have hzero : L.IsData 0 := isData_of_lt (by decide)
  have hsize : m.memory.size ≤ addressSpace := hmemory ▸ size_le
  have hend := stop_eq hpieces hpc
  have hstop : L.stop ≤ L.size := Nat.le_add_right _ _
  obtain ⟨hsource, hdestination, hnext⟩ := fields_of_kept hpieces hpc hintact hkept hzero.lt_size
    hzero.lt_size
  have hvalue := L.value_known (x := pc) (by omega)
  rw [← hat] at hsource hdestination hnext hvalue
  have hpositive : 0 < m.memory.size := hmemory ▸ hzero.lt_size
  have hfetch := Machine.fetch_eq hsize (by omega) (hsource ▸ hpositive) (hdestination ▸ hpositive)
  rw [hsource, hdestination, hnext, hvalue] at hfetch
  refine ⟨_, Machine.runFor_of_halt hhalted hfetch rfl, ?_, hat, ?_, ?_⟩
  · exact decide_eq_true rfl
  · exact Machine.size_memory_perform m _
  · rw [Machine.contents_perform hpositive]
    exact Contents.set_same _ _

end Instruction

end Linked

end ByteJump
