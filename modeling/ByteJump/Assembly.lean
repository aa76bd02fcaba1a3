import ByteJump.Constant
import ByteJump.Image

set_option autoImplicit false

/-!
# Assembly

Code is a sequence of pieces: instructions, plain bytes and words of data.  A word of data and the
successor of an instruction may be an address that nobody knows yet; it is kept as a symbol until
all code is laid out.  The size of a piece does not depend on what its symbols turn out to be, so
addresses are known before any symbol is.

Linking writes the pieces out in order with every symbol replaced by its value.  The first symbol
without a value is the fault.
-/

-- an empty sum is the built-in zero
attribute [local instance (high)] Zero.ofOfNat0

namespace ByteJump

/-- A place in the code that a symbol names. -/
inductive Target where
  | label (label : Label)
  /-- a place inside a statement that no label names -/
  | point (role : String) (serial : Nat)
  deriving Repr

namespace Assembly

/-! ## Pieces -/

/-- An 8-byte word that is known or a symbol. -/
inductive Word where
  | known (value : Nat)
  /-- the address of a target, used at a site -/
  | address (target : Target) (site : Option Location)
  /-- the low 64 bits of a constant -/
  | constant (value : Expr)

/-- A piece of code. -/
inductive Piece where
  | instruction (source destination : Nat) (next : Word)
  | bytes (data : List UInt8)
  | word (value : Word)

/-- The word is a symbol. -/
def Word.isSymbol : Word → Bool
  | .known _ => false
  | _ => true

namespace Piece

/-- How many bytes a piece takes. -/
def size : Piece → Nat
  | .instruction .. => Memory.instructionSize
  | .bytes data => data.length
  | .word _ => Memory.addressSize

/-- The word of a piece that may be a symbol. -/
def word? : Piece → Option Word
  | .instruction _ _ next => some next
  | .bytes _ => none
  | .word value => some value

/-- The piece is an instruction. -/
def isInstruction : Piece → Bool
  | .instruction .. => true
  | _ => false

/-- The piece has a symbol in it. -/
def hasSymbol (p : Piece) : Bool := (p.word?.map Word.isSymbol).getD false

end Piece

/-! ## Linking -/

/-- The eight bytes of a word. -/
def wordBytes (n : Nat) : List UInt8 := Bytes.ofNat Memory.addressSize n

/-- The bytes of a piece, given the values of words. -/
def Piece.encode (value : Word → Except Fault Nat) : Piece → Except Fault (List UInt8)
  | .instruction source destination next => do
      let next ← value next
      return wordBytes source ++ wordBytes destination ++ wordBytes next
  | .bytes data => .ok data
  | .word w => do
      let n ← value w
      return wordBytes n

/-- The code so far with the bytes of one more piece behind it. -/
def append (value : Word → Except Fault Nat) (code : Array UInt8) (piece : Piece) :
    Except Fault (Array UInt8) := do
  let bytes ← piece.encode value
  return code.appendList bytes

/-- The bytes of pieces, given the values of words. -/
def link (value : Word → Except Fault Nat) (pieces : List Piece) :
    Except Fault (Array UInt8) :=
  pieces.foldlM (append value) #[]

/-- How many bytes pieces take. -/
def size (pieces : List Piece) : Nat := (pieces.map Piece.size).sum

/-! ## Piece by piece -/

section Linking

variable {value : Word → Except Fault Nat} {piece : Piece} {pieces : List Piece} {data : List UInt8}
  {code linked : Array UInt8} {fault : Fault}

theorem Piece.encode_instruction {source destination : Nat} {next : Word} :
    (instruction source destination next).encode value = .ok data ↔
      ∃ n, value next = .ok n ∧
        wordBytes source ++ wordBytes destination ++ wordBytes n = data := by
  rw [encode]
  cases value next <;> simp [bind, Except.bind, pure, Except.pure]

theorem Piece.encode_word {w : Word} :
    (word w).encode value = .ok data ↔ ∃ n, value w = .ok n ∧ wordBytes n = data := by
  rw [encode]
  cases value w <;> simp [bind, Except.bind, pure, Except.pure]

/-- A piece cannot be encoded if the word in it has no value. -/
theorem Piece.encode_eq_error :
    piece.encode value = .error fault ↔ ∃ w, piece.word? = some w ∧ value w = .error fault := by
  cases piece with
  | instruction source destination next =>
      rw [encode]
      cases hnext : value next <;> simp [word?, hnext, bind, Except.bind, pure, Except.pure]
  | bytes data => simp [encode, word?]
  | word w =>
      rw [encode]
      cases hw : value w <;> simp [word?, hw, bind, Except.bind, pure, Except.pure]

/-- Linking goes on behind the bytes of the first piece. -/
theorem foldlM_append_eq_ok : (piece :: pieces).foldlM (append value) code = .ok linked ↔
    ∃ data, piece.encode value = .ok data ∧
      pieces.foldlM (append value) (code.appendList data) = .ok linked := by
  rw [List.foldlM_cons, append]
  cases piece.encode value <;> simp [bind, Except.bind, pure, Except.pure]

/-- A fault of linking is that of one of the pieces. -/
theorem exists_of_link_error (h : link value pieces = .error fault) :
    ∃ piece ∈ pieces, piece.encode value = .error fault := by
  unfold link at h
  generalize (#[] : Array UInt8) = code at h
  induction pieces generalizing code with
  | nil => cases h
  | cons piece rest ih =>
      rw [List.foldlM_cons, append] at h
      cases hdata : piece.encode value with
      | error e =>
          rw [hdata] at h
          cases h
          exact ⟨piece, List.mem_cons_self, hdata⟩
      | ok data =>
          rw [hdata] at h
          obtain ⟨other, hother, hfault⟩ := ih _ h
          exact ⟨other, List.mem_cons_of_mem _ hother, hfault⟩

/-- Every piece of linked code could be encoded. -/
theorem encode_of_link (h : link value pieces = .ok linked) :
    ∀ piece ∈ pieces, ∃ data, piece.encode value = .ok data := by
  unfold link at h
  generalize (#[] : Array UInt8) = code at h
  induction pieces generalizing code with
  | nil => exact fun _ => nofun
  | cons piece rest ih =>
      obtain ⟨data, hdata, hrest⟩ := foldlM_append_eq_ok.mp h
      exact List.forall_mem_cons.mpr ⟨⟨data, hdata⟩, ih _ hrest⟩

end Linking

/-! ## Sizes -/

theorem size_append (before behind : List Piece) :
    size (before ++ behind) = size before + size behind := by
  simp [size]

theorem length_wordBytes (n : Nat) : (wordBytes n).length = Memory.addressSize :=
  Bytes.length_ofNat _ n

/-- A piece takes the same number of bytes whatever its symbol is worth. -/
theorem Piece.length_encode {value : Word → Except Fault Nat} {piece : Piece}
    {data : List UInt8} (h : piece.encode value = .ok data) : data.length = piece.size := by
  cases piece with
  | instruction source destination next =>
      obtain ⟨n, -, rfl⟩ := encode_instruction.mp h
      simp [length_wordBytes, size, Memory.addressSize, Memory.instructionSize]
  | bytes data' =>
      cases h
      rfl
  | word w =>
      obtain ⟨n, -, rfl⟩ := encode_word.mp h
      exact length_wordBytes n

/-- Linked code is as long as its pieces. -/
theorem size_of_link {value : Word → Except Fault Nat} {pieces : List Piece}
    {code : Array UInt8} (h : link value pieces = .ok code) : code.size = size pieces := by
  suffices ∀ start : Array UInt8, pieces.foldlM (append value) start = .ok code →
      code.size = start.size + size pieces by
    simpa using this #[] h
  clear h
  induction pieces with
  | nil =>
      intro start h
      cases h
      simp [size]
  | cons piece rest ih =>
      intro start h
      obtain ⟨data, hdata, hrest⟩ := foldlM_append_eq_ok.mp h
      have hlonger : (start.appendList data).size = start.size + piece.size := by
        rw [← Piece.length_encode hdata, ← Array.length_toList]
        simp
      rw [ih _ hrest, hlonger, Nat.add_assoc]
      rfl

end Assembly

end ByteJump
