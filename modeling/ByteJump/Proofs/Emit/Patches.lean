import ByteJump.Generate

set_option autoImplicit false

/-!
# Linking is patching

Code can be laid down with zeros for its symbols and the symbols be written over it in the end, one
word after the other.  This gives the same bytes as linking, and the same fault where a symbol has
no value: a patch never reaches over the end of the buffer.
-/

namespace ByteJump

namespace Assembly

open Memory

/-! ## Patches -/

/-- A word to be written over the code at an address. -/
structure Patch where
  address : Nat
  word : Word

/-- Where the word of a piece stands inside the piece. -/
def Piece.wordOffset : Piece → Nat
  | .instruction .. => nextField
  | .bytes _ | .word _ => 0

/-- The patches of a piece that is laid down at an address. -/
def Piece.patches (start : Nat) (piece : Piece) : List Patch :=
  match piece.word? with
  | some w => if w.isSymbol then [⟨start + piece.wordOffset, w⟩] else []
  | none => []

/-- The patches of pieces that are laid down from an address on. -/
def patchesFrom : Nat → List Piece → List Patch
  | _, [] => []
  | start, piece :: rest => piece.patches start ++ patchesFrom (start + piece.size) rest

/-- What is laid down for a word; zero for a symbol. -/
def Word.blank : Word → Nat
  | .known value => value
  | .address .. | .constant _ => 0

/-- What is laid down for a piece. -/
def Piece.blank : Piece → List UInt8
  | .instruction source destination next =>
      wordBytes source ++ wordBytes destination ++ wordBytes next.blank
  | .bytes data => data
  | .word w => wordBytes w.blank

/-- What is laid down for pieces. -/
def blank (pieces : List Piece) : List UInt8 := pieces.flatMap Piece.blank

/-- A buffer with a word written over it. -/
def write (buffer : List UInt8) (address value : Nat) : List UInt8 :=
  buffer.take address ++ wordBytes value ++ buffer.drop (address + addressSize)

/-- A buffer with one patch written over it, which has to lie inside. -/
def writePatch (value : Word → Except Fault Nat) (buffer : List UInt8) (patch : Patch) :
    Except Fault (List UInt8) := do
  let n ← value patch.word
  if patch.address + addressSize ≤ buffer.length then return write buffer patch.address n
  else throw (.internal "patch outside the buffer")

/-- A buffer with patches written over it. -/
def backpatch (value : Word → Except Fault Nat) (patches : List Patch) (buffer : List UInt8) :
    Except Fault (List UInt8) :=
  patches.foldlM (writePatch value) buffer

/-! ## Places of patches -/

theorem Piece.length_blank (piece : Piece) : piece.blank.length = piece.size := by
  cases piece <;> simp [blank, size, length_wordBytes, addressSize, instructionSize]

theorem length_blank (pieces : List Piece) : (blank pieces).length = size pieces := by
  simp [blank, size, List.length_flatMap, Piece.length_blank]

/-- The patch of a piece lies inside the piece. -/
theorem Piece.mem_patches {start : Nat} {piece : Piece} {patch : Patch}
    (h : patch ∈ piece.patches start) :
    start ≤ patch.address ∧ patch.address + addressSize ≤ start + piece.size := by
  have hsize : ∀ word, piece.word? = some word → piece.wordOffset + addressSize ≤ piece.size := by
    intro word hword
    cases piece with
    | instruction source destination next => exact Nat.le_refl _
    | bytes data => cases hword
    | word value => exact Nat.le_refl _
  unfold patches at h
  split at h
  · rename_i word hword
    split at h
    · obtain rfl := List.mem_singleton.mp h
      have hle := hsize word hword
      dsimp only
      omega
    · cases h
  · cases h

/-- All patches lie where the pieces are. -/
theorem mem_patchesFrom {pieces : List Piece} : ∀ {start : Nat} {patch : Patch},
    patch ∈ patchesFrom start pieces →
    start ≤ patch.address ∧ patch.address + addressSize ≤ start + size pieces := by
  induction pieces with
  | nil => exact fun h => nomatch h
  | cons piece rest ih =>
      intro start patch h
      have hsize : size (piece :: rest) = piece.size + size rest := by simp [size]
      rcases List.mem_append.mp h with hfirst | hrest
      · obtain ⟨hlow, hhigh⟩ := piece.mem_patches hfirst
        omega
      · obtain ⟨hlow, hhigh⟩ := ih hrest
        omega

/-! ## Linking -/

section Backpatch

variable {value : Word → Except Fault Nat}

/-- A patch that lies inside what was laid down behind some code. -/
theorem writePatch_of (w : Word) (before first behind : List UInt8) {old : List UInt8}
    {address : Nat} (haddress : address = before.length + first.length)
    (hold : old.length = addressSize) :
    writePatch value (before ++ (first ++ old) ++ behind) ⟨address, w⟩ =
      (value w).map fun n => before ++ (first ++ wordBytes n) ++ behind := by
  have hbuffer : before ++ (first ++ old) ++ behind = (before ++ first) ++ (old ++ behind) := by
    simp only [List.append_assoc]
  have hlength : (before ++ first).length = address := by
    rw [List.length_append, haddress]
  have hfits : address + addressSize ≤ (before ++ (first ++ old) ++ behind).length := by
    simp only [List.length_append, hold, haddress]
    omega
  unfold writePatch
  cases value w with
  | error fault => rfl
  | ok n =>
      simp only [bind, Except.bind, Except.map, if_pos hfits, pure, Except.pure]
      unfold write
      rw [hbuffer, List.take_left' hlength, ← List.drop_drop, List.drop_left' hlength,
        List.drop_left' hold]
      simp only [List.append_assoc]

/-- The patches of a piece turn what was laid down for it into its bytes. -/
theorem backpatch_piece (hknown : ∀ n, value (.known n) = .ok n) (before behind : List UInt8)
    (piece : Piece) :
    backpatch value (piece.patches before.length) (before ++ piece.blank ++ behind) =
      (piece.encode value).map fun data => before ++ data ++ behind := by
  have hone : ∀ patch buffer, backpatch value [patch] buffer = writePatch value buffer patch := by
    intro patch buffer
    simp [backpatch]
  cases piece with
  | bytes data => rfl
  | instruction source destination next =>
      cases hsymbol : next.isSymbol with
      | false =>
          cases next <;> cases hsymbol
          simp only [Piece.patches, Piece.word?, Piece.encode, hknown]
          rfl
      | true =>
          have hfield : before.length + nextField =
              before.length + (wordBytes source ++ wordBytes destination).length := by
            simp [length_wordBytes, addressSize, nextField]
          have hwrite := @writePatch_of value next before (wordBytes source ++ wordBytes destination)
            behind (wordBytes next.blank) _ hfield (length_wordBytes _)
          simp only [Piece.patches, Piece.word?, hsymbol, if_true, Piece.wordOffset, hone,
            Piece.blank, hwrite, Piece.encode]
          cases value next <;> rfl
  | word w =>
      cases hsymbol : w.isSymbol with
      | false =>
          cases w <;> cases hsymbol
          simp only [Piece.patches, Piece.word?, Piece.encode, hknown]
          rfl
      | true =>
          have hwrite := @writePatch_of value w before [] behind (wordBytes w.blank) before.length
            rfl (length_wordBytes _)
          simp only [List.nil_append] at hwrite
          simp only [Piece.patches, Piece.word?, hsymbol, if_true, Piece.wordOffset, hone,
            Piece.blank, Nat.add_zero, hwrite, Piece.encode]
          cases value w <;> rfl

/-- Linking behind some code is the same as laying pieces down and patching them. -/
theorem foldlM_append_eq (hknown : ∀ n, value (.known n) = .ok n) (pieces : List Piece) :
    ∀ code : Array UInt8, (pieces.foldlM (append value) code).map Array.toList =
      backpatch value (patchesFrom code.size pieces) (code.toList ++ blank pieces) := by
  induction pieces with
  | nil =>
      intro code
      simp [backpatch, patchesFrom, blank, Except.map, pure, Except.pure]
  | cons piece rest ih =>
      intro code
      have hblank : code.toList ++ blank (piece :: rest) =
          code.toList ++ piece.blank ++ blank rest := by
        simp [blank]
      have hpiece := backpatch_piece hknown code.toList (blank rest) piece
      rw [Array.length_toList] at hpiece
      have hsplit : backpatch value (patchesFrom code.size (piece :: rest))
          (code.toList ++ blank (piece :: rest)) =
          (backpatch value (piece.patches code.size) (code.toList ++ blank (piece :: rest))).bind
            (backpatch value (patchesFrom (code.size + piece.size) rest)) :=
        List.foldlM_append
      rw [hsplit, hblank, hpiece, List.foldlM_cons]
      cases hdata : piece.encode value with
      | error fault => simp [append, hdata, Except.map, bind, Except.bind]
      | ok data =>
          have hsize : (code.appendList data).size = code.size + piece.size := by
            rw [← Piece.length_encode hdata, ← Array.length_toList]
            simp
          have hlist : (code.appendList data).toList = code.toList ++ data := by simp
          have hrest := ih (code.appendList data)
          rw [hsize, hlist] at hrest
          simp only [append, hdata, bind, Except.bind, pure, Except.pure]
          exact hrest

/-- Code behind a buffer is linked as it is without the buffer. -/
theorem foldlM_append_behind (before : Array UInt8) (pieces : List Piece) :
    ∀ code : Array UInt8, pieces.foldlM (append value) (before ++ code) =
      (pieces.foldlM (append value) code).map fun code => before ++ code := by
  induction pieces with
  | nil => exact fun code => rfl
  | cons piece rest ih =>
      intro code
      rw [List.foldlM_cons, List.foldlM_cons]
      cases hdata : piece.encode value with
      | error fault => simp [append, hdata, Except.map, bind, Except.bind]
      | ok data =>
          have hcode : (before ++ code).appendList data = before ++ code.appendList data := by
            apply Array.toList_inj.mp
            simp
          simp only [append, hdata, bind, Except.bind, pure, Except.pure, hcode]
          exact ih (code.appendList data)

/-- Linked code behind a buffer is what was laid down there, patched. -/
theorem link_eq (hknown : ∀ n, value (.known n) = .ok n) (before : Array UInt8)
    (pieces : List Piece) :
    (link value pieces).map (fun code => (before ++ code).toList) =
      backpatch value (patchesFrom before.size pieces) (before.toList ++ blank pieces) := by
  rw [← foldlM_append_eq hknown]
  have hbehind := @foldlM_append_behind value before pieces #[]
  rw [Array.append_empty] at hbehind
  rw [hbehind]
  unfold link
  cases pieces.foldlM (append value) #[] <;> rfl

end Backpatch

end Assembly

end ByteJump
