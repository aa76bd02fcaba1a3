import ByteJump.Proofs.Run.Branch

set_option autoImplicit false

/-!
# Segments of code

Without jumps to computed addresses, raw words and stores, code is a row of segments of a few shapes:
a copy, a jump over data, a lookup, a load, a jump to a point, and the choice of an address from a
table.  Only a choice asks for something when it is reached, namely that the immediate register has
been tested: its low byte is 0 or 8.  So segments are typed with what is known of the test in front of
them and behind them.

A segment writes into registers, into the first byte of memory or into an address field of an
instruction behind the one that writes.

`Segment n start tested more tested'` has one constructor for each shape, and a row of segments is
`Laid`.  The index `n` bounds the registers that may be written to, the two flags say whether a
test is known in front and behind.  What a run needs is derived from the grammar once and for all:
nothing outside of the pieces is written to, `Laid.closed`; fields that are written to belong to
instructions that are patched, `Segment.writes`; and the addresses between segments, `Cut`, are
where control may arrive.
-/

namespace ByteJump

open Memory

namespace Assembly

/-! ## Pieces and their addresses

A piece stands at an address if the pieces in front of it take that much room. -/

/-- A piece stands at an address, in pieces laid down from `start` on. -/
def PieceAt (start : Nat) (pieces : List Piece) (a : Nat) (piece : Piece) : Prop :=
  ∃ before behind, pieces = before ++ piece :: behind ∧ a = start + size before

section PieceAt

variable {start a b : Nat} {pieces more : List Piece} {piece other : Piece}

theorem pieceAt_head : PieceAt start (piece :: pieces) start piece := ⟨[], pieces, rfl, rfl⟩

/-- A piece of the first part is a piece of the whole. -/
theorem PieceAt.left (h : PieceAt start pieces a piece) :
    PieceAt start (pieces ++ more) a piece := by
  obtain ⟨before, behind, rfl, ha⟩ := h
  exact ⟨before, behind ++ more, by simp, ha⟩

theorem PieceAt.right (h : PieceAt (start + size pieces) more a piece) :
    PieceAt start (pieces ++ more) a piece := by
  obtain ⟨before, behind, rfl, ha⟩ := h
  exact ⟨pieces ++ before, behind, by simp, by rw [size_append, ha, Nat.add_assoc]⟩

/-- A piece of the whole is one of the first part or of the second. -/
theorem pieceAt_append (h : PieceAt start (pieces ++ more) a piece) :
    PieceAt start pieces a piece ∨ PieceAt (start + size pieces) more a piece := by
  obtain ⟨before, behind, heq, ha⟩ := h
  rcases List.append_eq_append_iff.mp heq with ⟨rest, rfl, hmore⟩ | ⟨rest, hpieces, hrest⟩
  · exact Or.inr ⟨rest, behind, hmore, by rw [ha, size_append, Nat.add_assoc]⟩
  · cases rest with
    | nil =>
        rw [List.append_nil] at hpieces
        refine Or.inr ⟨[], behind, hrest.symm, ?_⟩
        rw [ha, hpieces]
        rfl
    | cons first rest =>
        obtain ⟨rfl, -⟩ := List.cons.inj hrest
        exact Or.inl ⟨before, rest, hpieces, ha⟩

theorem PieceAt.mem (h : PieceAt start pieces a piece) : piece ∈ pieces := by
  obtain ⟨before, behind, rfl, -⟩ := h
  exact List.mem_append_right _ List.mem_cons_self

theorem size_cons (piece : Piece) (pieces : List Piece) :
    size (piece :: pieces) = piece.size + size pieces := by simp [size]

/-- A piece lies between the ends of the row. -/
theorem PieceAt.fits (h : PieceAt start pieces a piece) :
    start ≤ a ∧ a + piece.size ≤ start + size pieces := by
  obtain ⟨before, behind, rfl, rfl⟩ := h
  rw [size_append, size_cons]
  omega

/-- Two pieces are the same one or lie apart. -/
theorem PieceAt.apart (h : PieceAt start pieces a piece) (h' : PieceAt start pieces b other) :
    a = b ∧ piece = other ∨ a + piece.size ≤ b ∨ b + other.size ≤ a := by
  obtain ⟨before, behind, rfl, rfl⟩ := h
  rcases pieceAt_append h' with hbefore | hbehind
  · exact Or.inr (Or.inr hbefore.fits.2)
  · obtain ⟨between, rest, heq, hb⟩ := hbehind
    cases between with
    | nil =>
        obtain ⟨rfl, -⟩ := List.cons.inj heq
        exact Or.inl ⟨hb.symm, rfl⟩
    | cons first between =>
        obtain ⟨rfl, -⟩ := List.cons.inj heq
        rw [size_cons] at hb
        exact Or.inr (Or.inl (by omega))

/-- What is written to is the destination of an instruction. -/
theorem exists_of_destination (start : Nat) (h : a ∈ destinations pieces) :
    ∃ x source next, PieceAt start pieces x (.instruction source a next) := by
  obtain ⟨piece, hpiece, hdestination⟩ := List.mem_filterMap.mp h
  obtain ⟨before, behind, rfl⟩ := List.append_of_mem hpiece
  cases piece with
  | instruction source destination next =>
      obtain rfl := Option.some.inj hdestination
      exact ⟨_, source, next, before, behind, rfl, rfl⟩
  | bytes data => cases hdestination
  | word value => cases hdestination

theorem destinations_of_data (h : ∀ piece ∈ pieces, piece.isInstruction = false) :
    destinations pieces = [] := by
  refine List.filterMap_eq_nil_iff.mpr fun piece hpiece => ?_
  have hdata := h piece hpiece
  cases piece with
  | instruction source destination next => cases hdata
  | bytes data => rfl
  | word value => rfl

end PieceAt

/-! ## Address fields that are written to -/

/-- An instruction writes into an address field, other than the destination, of an instruction that
stands behind it. -/
def Patches (start : Nat) (pieces : List Piece) (a : Nat) : Prop :=
  ∃ x source next y source' destination' next',
    PieceAt start pieces x (.instruction source a next) ∧
    PieceAt start pieces y (.instruction source' destination' next') ∧ x < y ∧
    (y ≤ a ∧ a < y + destinationField ∨ y + nextField ≤ a ∧ a < y + instructionSize)

section Patches

variable {start a : Nat} {pieces more : List Piece}

/-- What is patched in the first part is patched in the whole. -/
theorem Patches.left (h : Patches start pieces a) : Patches start (pieces ++ more) a := by
  obtain ⟨x, source, next, y, source', destination', next', hx, hy, hrest⟩ := h
  exact ⟨x, source, next, y, source', destination', next', hx.left, hy.left, hrest⟩

theorem Patches.right (h : Patches (start + size pieces) more a) :
    Patches start (pieces ++ more) a := by
  obtain ⟨x, source, next, y, source', destination', next', hx, hy, hrest⟩ := h
  exact ⟨x, source, next, y, source', destination', next', hx.right, hy.right, hrest⟩

/-- A patched field lies in the row. -/
theorem Patches.fits (h : Patches start pieces a) : start ≤ a ∧ a < start + size pieces := by
  obtain ⟨x, source, next, y, source', destination', next', -, hy, -, hfield⟩ := h
  have hfits := hy.fits
  simp only [Piece.size, instructionSize, destinationField, nextField] at hfits hfield
  omega

/-- Pieces with an instruction behind them that write into a field of it. -/
theorem patches_of_destination {source destination : Nat} {next : Word} {behind : List Piece}
    (h : a ∈ destinations pieces)
    (hfield : start + size pieces ≤ a ∧ a < start + size pieces + destinationField ∨
      start + size pieces + nextField ≤ a ∧ a < start + size pieces + instructionSize) :
    Patches start (pieces ++ .instruction source destination next :: behind) a := by
  obtain ⟨x, source', next', hx⟩ := exists_of_destination start h
  have hfits := hx.fits
  simp only [Piece.size, instructionSize] at hfits
  exact ⟨x, source', next', _, source, destination, next, hx.left, PieceAt.right pieceAt_head,
    by omega, hfield⟩

/-- Copies into the source of the instruction behind them write to no other field of it. -/
theorem patches_of_patched {fields : List (Nat × Nat)} {source destination : Nat}
    (hfields : ∀ f ∈ fields, f.2 < destinationField)
    (h : a ∈ destinations (patchedPieces start fields source destination)) :
    Patches start (patchedPieces start fields source destination) a ∨ a = destination := by
  rw [destinations_patchedPieces] at h
  rcases List.mem_append.mp h with hfield | hlast
  · refine Or.inl (patches_of_destination ?_ (Or.inl ?_))
    · rw [destinations_patchPieces]
      exact hfield
    · obtain ⟨f, hf, rfl⟩ := List.mem_map.mp hfield
      have hsmall := hfields f hf
      rw [size_patchPieces]
      omega
  · exact Or.inr (List.mem_singleton.mp hlast)

/-- Selecting writes into sources of its own instructions and into the successor of the jump. -/
theorem patches_of_select {table jump : Nat} : ∀ {count start i : Nat},
    a ∈ destinations (selectPieces table jump start count i) →
    Patches start (selectPieces table jump start count i) a ∨
      jump + nextField + i ≤ a ∧ a < jump + nextField + i + count := by
  intro count
  induction count with
  | zero =>
      intro start i h
      cases h
  | succ count ih =>
      intro start i h
      rw [selectPieces, destinations_append] at h
      rcases List.mem_append.mp h with hfirst | hrest
      · rw [selectPiece, destinations_append] at hfirst
        rcases List.mem_append.mp hfirst with hlookup | hcopy
        · have hsize := size_patchedPieces start [(immediate, sourceField)]
            (addTable + (table % 256 + i) * 256) (start + 2 * instructionSize + sourceField)
          rcases patches_of_patched (by simp [sourceField, destinationField]) hlookup with
            hpatches | hselector
          · exact Or.inl hpatches.left.left
          · refine Or.inl (Patches.left (patches_of_destination hlookup (Or.inl ?_)))
            rw [hsize, hselector]
            simp only [List.length_singleton, instructionSize, sourceField, destinationField]
            omega
        · obtain rfl : a = jump + nextField + i := by simpa [destinations] using hcopy
          exact Or.inr (by omega)
      · have hsize := size_selectPiece table jump start i
        rcases ih hrest with hpatches | hjump
        · rw [← hsize] at hpatches
          exact Or.inl hpatches.right
        · exact Or.inr (by omega)

/-- A choice writes into address fields of its own instructions. -/
theorem patches_of_choice {table : Nat} (h : a ∈ destinations (choicePieces table start)) :
    Patches start (choicePieces table start) a ∨ a = 0 := by
  have hsize := size_selectPieces table (start + addressSize * (3 * instructionSize)) addressSize
    start 0
  rw [choicePieces, destinations_append] at h
  rcases List.mem_append.mp h with hselect | hlast
  · rcases patches_of_select hselect with hpatches | hjump
    · exact Or.inl hpatches.left
    · refine Or.inl (patches_of_destination hselect (Or.inr ?_))
      rw [hsize]
      simp only [addressSize, nextField, instructionSize] at hjump ⊢
      omega
  · exact Or.inr (by simpa [destinations] using hlast)

end Patches

end Assembly

namespace Emit

open Assembly

/-! ## Segments -/

/-- The address is in the immediate register or in one of the first `n` registers. -/
def Slot (n a : Nat) : Prop := immediate ≤ a ∧ a < register n

/-- More registers in use, more slots. -/
theorem Slot.mono {n n' a : Nat} (h : Slot n a) (hn : n ≤ n') (hcount : n' ≤ registerCount) :
    Slot n' a := ⟨h.1, Nat.lt_of_lt_of_le h.2 (register_mono hn hcount)⟩

/-- Registers lie in front of the tables. -/
theorem Slot.lt_addTable {n a : Nat} (h : Slot n a) (hcount : n ≤ registerCount) : a < addTable := by
  have hregister := register_mono hcount (Nat.le_refl _)
  rw [register_registerCount] at hregister
  exact Nat.lt_of_lt_of_le h.2 hregister

/-- A byte of the immediate register. -/
theorem slot_immediate {n i : Nat} (hcount : n ≤ registerCount) (h : i < registerSize) :
    Slot n (immediate + i) := by
  have hregister := register_mono (Nat.zero_le n) hcount
  have hzero : register 0 = immediate + registerSize := by decide
  exact ⟨Nat.le_add_right _ _, by omega⟩

/-- A byte of a register below the bound. -/
theorem slot_register {n r i : Nat} (hcount : n ≤ registerCount) (hr : r < n)
    (h : i < registerSize) : Slot n (register r + i) := by
  obtain ⟨-, hlow, -⟩ := register_eq (Nat.lt_of_lt_of_le hr hcount)
  have hsucc := register_succ (Nat.lt_of_lt_of_le hr hcount)
  have hnext : r + 1 ≤ n := hr
  have hregister := register_mono hnext hcount
  exact ⟨by omega, by omega⟩

/-- The code of a load through the pointer in the immediate register, laid down at an address. -/
def loadPieces (start : Nat) : List Piece :=
  patchedPieces start (wholeField immediate sourceField) 0 immediate

/-- A table of two addresses and the choice of one of them, laid down at an address. -/
def choosePieces (taken otherwise : Target) (start : Nat) : List Piece :=
  alignedPieces start 16 [.word (.address taken none), .word (.address otherwise none)] ++
    choicePieces (alignUp (start + instructionSize) 16) (start + size (alignedPieces start 16
      [.word (.address taken none), .word (.address otherwise none)]))

/-- The code of one segment that is laid down at an address, with what is known of the test in front
of it and behind it. -/
inductive Segment (n start : Nat) : Bool → List Piece → Bool → Prop
  | copy {tested : Bool} {source destination : Nat} (hsource : source < start)
      (hdestination : Slot n destination) (htested : tested = true → destination ≠ immediate) :
      Segment n start tested
        [.instruction source destination (.known (start + instructionSize))] tested
  /-- a jump over data -/
  | skipped {tested : Bool} {data : List Piece}
      (hdata : ∀ piece ∈ data, piece.isInstruction = false) :
      Segment n start tested
        (.instruction 0 0 (.known (start + instructionSize + size data)) :: data) tested
  /-- a lookup in the logical-not page, which tests if it is one into the immediate register -/
  | notLookup {tested : Bool} {x destination : Nat} (hx : x < addTable)
      (hdestination : Slot n destination) (htested : tested = true → destination = immediate) :
      Segment n start false (patchedPieces start [(x, sourceField)] notTable destination) tested
  | sumLookup {x y destination : Nat} (hx : x < addTable) (hy : y < addTable)
      (hdestination : Slot n destination) :
      Segment n start false
        (patchedPieces start [(x, sourceField + 1), (y, sourceField)] addTable destination) false
  | load : Segment n start false (loadPieces start) false
  | jump {role : String} {serial : Nat} :
      Segment n start false [.instruction 0 0 (.address (.point role serial) none)] false
  /-- a table of the addresses of two points, and the choice of one -/
  | choose {role role' : String} {serial serial' : Nat} :
      Segment n start true
        (choosePieces (.point role serial) (.point role' serial') start) false

section Segment

variable {n n' start : Nat} {tested tested' : Bool} {more : List Piece}

/-- A segment stays one when more registers are in use. -/
theorem Segment.mono (h : Segment n start tested more tested') (hn : n ≤ n')
    (hcount : n' ≤ registerCount) : Segment n' start tested more tested' := by
  cases h with
  | copy hsource hdestination htested =>
      exact .copy hsource (hdestination.mono hn hcount) htested
  | skipped hdata => exact .skipped hdata
  | notLookup hx hdestination htested => exact .notLookup hx (hdestination.mono hn hcount) htested
  | sumLookup hx hy hdestination => exact .sumLookup hx hy (hdestination.mono hn hcount)
  | load => exact .load
  | jump => exact .jump
  | choose => exact .choose

theorem wholeField_lt {source : Nat} : ∀ f ∈ wholeField source sourceField, f.2 < destinationField := by
  intro f hf
  obtain ⟨i, hi, rfl⟩ := List.mem_map.mp hf
  simpa [sourceField, destinationField, addressSize] using hi

/-- What a segment writes to. -/
theorem Segment.writes (h : Segment n start tested more tested') (hcount : n ≤ registerCount)
    {a : Nat} (ha : a ∈ destinations more) : Slot n a ∨ a = 0 ∨ Patches start more a := by
  cases h with
  | copy hsource hdestination htested =>
      obtain rfl := List.mem_singleton.mp ha
      exact Or.inl hdestination
  | @skipped _ data hdata =>
      have hnone : destinations data = [] := destinations_of_data hdata
      obtain rfl : a = 0 := by simpa [destinations, show List.filterMap _ data = [] from hnone] using ha
      exact Or.inr (Or.inl rfl)
  | notLookup hx hdestination htested =>
      rcases patches_of_patched (by simp [sourceField, destinationField]) ha with hpatches | rfl
      · exact Or.inr (Or.inr hpatches)
      · exact Or.inl hdestination
  | sumLookup hx hy hdestination =>
      rcases patches_of_patched (by simp [sourceField, destinationField]) ha with hpatches | rfl
      · exact Or.inr (Or.inr hpatches)
      · exact Or.inl hdestination
  | load =>
      rcases patches_of_patched wholeField_lt ha with hpatches | rfl
      · exact Or.inr (Or.inr hpatches)
      · exact Or.inl (slot_immediate (i := 0) hcount (by decide))
  | jump =>
      obtain rfl := List.mem_singleton.mp ha
      exact Or.inr (Or.inl rfl)
  | choose =>
      rw [choosePieces, destinations_append] at ha
      rcases List.mem_append.mp ha with hover | hchoice
      · obtain rfl : a = 0 := by simpa [destinations, alignedPieces] using hover
        exact Or.inr (Or.inl rfl)
      · rcases patches_of_choice hchoice with hpatches | hzero
        · exact Or.inr (Or.inr (by rw [choosePieces]; exact hpatches.right))
        · exact Or.inr (Or.inl hzero)

/-- The successors of all instructions are known. -/
def AllKnown (pieces : List Piece) : Prop :=
  ∀ source destination next, .instruction source destination next ∈ pieces →
    next.isSymbol = false

theorem allKnown_patchPieces (target : Nat) (fields : List (Nat × Nat)) :
    ∀ start, AllKnown (patchPieces target start fields) := by
  induction fields with
  | nil =>
      intro start source destination next h
      cases h
  | cons f fields ih =>
      intro start source destination next h
      rcases List.mem_cons.mp h with heq | hrest
      · cases heq
        rfl
      · exact ih _ source destination next hrest

/-- All successors of both parts are known. -/
theorem AllKnown.append {pieces pieces' : List Piece} (h : AllKnown pieces) (h' : AllKnown pieces') :
    AllKnown (pieces ++ pieces') := by
  intro source destination next hmem
  rcases List.mem_append.mp hmem with hleft | hright
  · exact h source destination next hleft
  · exact h' source destination next hright

theorem allKnown_instruction (source destination next : Nat) :
    AllKnown [.instruction source destination (.known next)] := by
  intro source destination next h
  cases List.mem_singleton.mp h
  rfl

/-- Instructions that are patched go on behind themselves. -/
theorem allKnown_patchedPieces (start : Nat) (fields : List (Nat × Nat)) (source destination : Nat) :
    AllKnown (patchedPieces start fields source destination) :=
  (allKnown_patchPieces _ _ _).append (allKnown_instruction _ _ _)

theorem allKnown_selectPieces (table jump count : Nat) :
    ∀ start i, AllKnown (selectPieces table jump start count i) := by
  induction count with
  | zero =>
      intro start i source destination next h
      cases h
  | succ count ih =>
      intro start i
      exact ((allKnown_patchedPieces _ _ _ _).append (allKnown_instruction _ _ _)).append (ih _ _)

theorem allKnown_over (next : Nat) {data : List Piece}
    (hdata : ∀ piece ∈ data, piece.isInstruction = false) :
    AllKnown (.instruction 0 0 (.known next) :: data) := by
  intro source destination next h
  rcases List.mem_cons.mp h with heq | hrest
  · cases heq
    rfl
  · cases hdata _ hrest

/-- Only a jump to a point has an instruction whose successor is a symbol. -/
theorem Segment.allKnown_or_jump (h : Segment n start tested more tested') :
    AllKnown more ∨
      ∃ role serial, more = [.instruction 0 0 (.address (.point role serial) none)] := by
  cases h with
  | copy => exact Or.inl (allKnown_instruction _ _ _)
  | skipped hdata => exact Or.inl (allKnown_over _ hdata)
  | notLookup => exact Or.inl (allKnown_patchedPieces _ _ _ _)
  | sumLookup => exact Or.inl (allKnown_patchedPieces _ _ _ _)
  | load => exact Or.inl (allKnown_patchedPieces _ _ _ _)
  | @jump role serial => exact Or.inr ⟨role, serial, rfl⟩
  | choose =>
      refine Or.inl (AllKnown.append ?_ ?_)
      · exact allKnown_over _ (by simp [Piece.isInstruction])
      · exact (allKnown_selectPieces _ _ _ _ _).append (allKnown_instruction _ _ _)

/-- A segment starts with an instruction that goes on somewhere in code. -/
theorem Segment.head (h : Segment n start tested more tested') :
    ∃ source destination next rest, more = .instruction source destination next :: rest ∧
      next ≠ .known 0 := by
  have hne : ∀ a, Word.known (a + instructionSize) ≠ .known 0 := by
    intro a heq
    have hzero : a + instructionSize = 0 := Word.known.inj heq
    simp [instructionSize] at hzero
  cases h with
  | copy => exact ⟨_, _, _, _, rfl, hne _⟩
  | skipped hdata =>
      refine ⟨_, _, _, _, rfl, ?_⟩
      rw [Nat.add_right_comm]
      exact hne _
  | notLookup => exact ⟨_, _, _, _, rfl, hne _⟩
  | sumLookup => exact ⟨_, _, _, _, rfl, hne _⟩
  | load => exact ⟨_, _, _, _, rfl, hne _⟩
  | jump => exact ⟨_, _, _, _, rfl, by simp⟩
  | choose =>
      refine ⟨_, _, _, _, rfl, fun heq => ?_⟩
      have hzero := Word.known.inj heq
      simp [Assembly.size, Piece.size, addressSize] at hzero

end Segment

/-! ## Rows of segments -/

/-- Segments one behind the other.  What is known of the test may be forgotten. -/
inductive Laid (n : Nat) : Nat → Bool → List Piece → Bool → Prop
  | nil {start : Nat} {tested : Bool} : Laid n start tested [] tested
  | forget {start : Nat} {pieces : List Piece} {tested : Bool}
      (rest : Laid n start false pieces tested) : Laid n start true pieces tested
  | cons {start : Nat} {tested tested' tested'' : Bool} {more pieces : List Piece}
      (first : Segment n start tested more tested')
      (rest : Laid n (start + size more) tested' pieces tested'') :
      Laid n start tested (more ++ pieces) tested''

section Laid

variable {n n' start : Nat} {tested tested' tested'' : Bool} {pieces more : List Piece}

/-- One segment is a row. -/
theorem Segment.laid (h : Segment n start tested more tested') :
    Laid n start tested more tested' := by
  have hrow := Laid.cons h .nil
  rwa [List.append_nil] at hrow

theorem Laid.head (h : Laid n start tested pieces tested') : pieces = [] ∨
    ∃ source destination next rest, pieces = .instruction source destination next :: rest ∧
      next ≠ .known 0 := by
  induction h with
  | nil => exact Or.inl rfl
  | forget _ ih => exact ih
  | cons first _ _ =>
      obtain ⟨source, destination, next, rest, rfl, hnext⟩ := first.head
      exact Or.inr ⟨source, destination, next, _, rfl, hnext⟩

/-- The flag behind the first row is the one in front of the second. -/
theorem Laid.append (h : Laid n start tested pieces tested')
    (h' : Laid n (start + size pieces) tested' more tested'') :
    Laid n start tested (pieces ++ more) tested'' := by
  induction h with
  | nil => exact h'
  | forget _ ih => exact .forget (ih h')
  | cons first _ ih =>
      rw [List.append_assoc]
      refine .cons first (ih ?_)
      rwa [Nat.add_assoc, ← size_append]

theorem Laid.mono (h : Laid n start tested pieces tested') (hn : n ≤ n')
    (hcount : n' ≤ registerCount) : Laid n' start tested pieces tested' := by
  induction h with
  | nil => exact .nil
  | forget _ ih => exact .forget ih
  | cons first _ ih => exact .cons (first.mono hn hcount) ih

theorem Laid.writes (h : Laid n start tested pieces tested') (hcount : n ≤ registerCount) {a : Nat}
    (ha : a ∈ destinations pieces) : Slot n a ∨ a = 0 ∨ Patches start pieces a := by
  induction h with
  | nil => cases ha
  | forget _ ih => exact ih ha
  | cons first _ ih =>
      rw [destinations_append] at ha
      rcases List.mem_append.mp ha with hfirst | hrest
      · rcases first.writes hcount hfirst with hslot | hzero | hpatches
        · exact Or.inl hslot
        · exact Or.inr (Or.inl hzero)
        · exact Or.inr (Or.inr hpatches.left)
      · rcases ih hrest with hslot | hzero | hpatches
        · exact Or.inl hslot
        · exact Or.inr (Or.inl hzero)
        · exact Or.inr (Or.inr hpatches.right)

/-- A row writes to itself and to registers only. -/
theorem Laid.closed (h : Laid n start tested pieces tested') (hcount : n ≤ registerCount) :
    Closed start pieces := by
  intro a ha
  rcases h.writes hcount ha with hslot | rfl | hpatches
  · exact Or.inl (hslot.lt_addTable hcount)
  · exact Or.inl (by decide)
  · exact Or.inr hpatches.fits

end Laid

/-! ## Places between segments -/

/-- The address is one between segments where nothing is known of the test. -/
def Cut (n : Nat) (pieces : List Piece) (tested : Bool) (a : Nat) : Prop :=
  ∃ before behind, pieces = before ++ behind ∧ Closed codeStart before ∧
    a = codeStart + size before ∧ Laid n a false behind tested

section Cut

variable {n n' a : Nat} {tested tested' : Bool} {pieces more : List Piece}

/-- A place between segments stays one when more registers are in use. -/
theorem Cut.mono (h : Cut n pieces tested a) (hn : n ≤ n') (hcount : n' ≤ registerCount) :
    Cut n' pieces tested a := by
  obtain ⟨before, behind, hpieces, hclosed, ha, hlaid⟩ := h
  exact ⟨before, behind, hpieces, hclosed, ha, hlaid.mono hn hcount⟩

/-- A place between segments stays one when code is added. -/
theorem Cut.append (h : Cut n pieces tested a)
    (h' : Laid n (codeStart + size pieces) tested more tested') :
    Cut n (pieces ++ more) tested' a := by
  obtain ⟨before, behind, rfl, hclosed, rfl, hlaid⟩ := h
  rw [size_append, ← Nat.add_assoc] at h'
  exact ⟨before, behind ++ more, by simp, hclosed, rfl, hlaid.append h'⟩

/-- Such a place is the end, or there is an instruction that goes on somewhere in code. -/
theorem Cut.instruction (h : Cut n pieces tested a) : a = codeStart + size pieces ∨
    ∃ source destination next, PieceAt codeStart pieces a (.instruction source destination next) ∧
      next ≠ .known 0 := by
  obtain ⟨before, behind, rfl, -, rfl, hlaid⟩ := h
  rcases hlaid.head with rfl | ⟨source, destination, next, rest, rfl, hnext⟩
  · rw [List.append_nil]
    exact Or.inl rfl
  · exact Or.inr ⟨source, destination, next, pieceAt_head.right, hnext⟩

theorem Cut.le (h : Cut n pieces tested a) : a ≤ codeStart + size pieces := by
  obtain ⟨before, behind, rfl, -, rfl, -⟩ := h
  rw [size_append]
  omega

/-- The end is such a place. -/
theorem cut_end (h : Closed codeStart pieces) :
    Cut n pieces false (codeStart + size pieces) :=
  ⟨pieces, [], by simp, h, rfl, .nil⟩

end Cut

end Emit

end ByteJump
