import ByteJump.Proofs.Run.Expr
import ByteJump.Proofs.Run.Trails

set_option autoImplicit false

/-!
# Running branches

The instruction that branches is the last one of its code, and its successor is laid down as zeros:
the instructions in front of it copy the chosen address from the table into it, one byte after the
other.  For each byte the place in the table is looked up first, as the sum of the place of the byte
in the first address and the number in the immediate register.  The table does not go over a multiple
of 256, so the sum of the low bytes is the low byte of the sum.

The proof follows the code.  `run_lookUpPlace` adds the number in the immediate register to the
place of one byte; `run_selectPiece` copies the byte found there into the jump; `run_selectPieces`
does so for all bytes, by induction on their number, with the bytes copied so far as the
invariant; and `run_choosing` adds the jump itself, whose successor is now the address from the
table.  The second half emits this code: `Turning` collects what is known behind a branch, namely
where the table stands, which addresses it holds, and that the choice is made from it.
-/

namespace ByteJump

open Assembly Memory

namespace Assembly

/-- Where a byte of the chosen address is copied from: the lookup of its place, and the copy. -/
def selectPiece (table jump start i : Nat) : List Piece :=
  patchedPieces start [(immediate, sourceField)] (addTable + (table % 256 + i) * 256)
      (start + 2 * instructionSize + sourceField) ++
    [.instruction (table + i) (jump + nextField + i)
      (.known (start + 2 * instructionSize + instructionSize))]

/-- The code that copies `count` bytes of the chosen address from `i` on, laid down at an
address. -/
def selectPieces (table jump : Nat) : Nat → Nat → Nat → List Piece
  | _, 0, _ => []
  | start, count + 1, i =>
      selectPiece table jump start i ++
        selectPieces table jump (start + 3 * instructionSize) count (i + 1)

/-- One byte takes three instructions. -/
theorem size_selectPiece (table jump start i : Nat) :
    size (selectPiece table jump start i) = 3 * instructionSize := by
  rw [selectPiece, size_append, size_patchedPieces]
  simp [size, Piece.size, instructionSize]

/-- Each byte takes three instructions: the number goes into a look-up, the sum into a copy, and
the copy takes the byte. -/
theorem size_selectPieces (table jump : Nat) : ∀ (count start i : Nat),
    size (selectPieces table jump start count i) = count * (3 * instructionSize)
  | 0, _, _ => by simp [selectPieces, size]
  | count + 1, start, i => by
      rw [selectPieces, size_append, size_selectPiece, size_selectPieces table jump count]
      ring

theorem destinations_selectPiece {table jump start i a : Nat}
    (h : a ∈ destinations (selectPiece table jump start i)) :
    a = start + instructionSize ∨ a = start + 2 * instructionSize ∨ a = jump + nextField + i := by
  rw [selectPiece, destinations_append, destinations_patchedPieces] at h
  simp only [List.map_cons, List.map_nil, List.length_singleton, destinations, List.filterMap_cons,
    List.filterMap_nil, List.mem_append, List.mem_singleton, sourceField] at h
  omega

/-- Selecting writes into its own code and into the jump behind it. -/
theorem destinations_selectPieces {table jump a : Nat} : ∀ {count start i : Nat},
    a ∈ destinations (selectPieces table jump start count i) →
    (∃ j < count, a = start + j * (3 * instructionSize) + instructionSize ∨
      a = start + j * (3 * instructionSize) + 2 * instructionSize) ∨
      ∃ j < count, a = jump + nextField + (i + j)
  | 0, _, _, h => nomatch h
  | count + 1, start, i, h => by
      rw [selectPieces, destinations_append] at h
      rcases List.mem_append.mp h with hfirst | hrest
      · rcases destinations_selectPiece hfirst with h | h | h
        · exact Or.inl ⟨0, by omega, by omega⟩
        · exact Or.inl ⟨0, by omega, by omega⟩
        · exact Or.inr ⟨0, by omega, by omega⟩
      · rcases destinations_selectPieces hrest with h | h
        · obtain ⟨j, hj, h⟩ := h
          refine Or.inl ⟨j + 1, by omega, ?_⟩
          rw [Nat.add_mul]
          omega
        · obtain ⟨j, hj, h⟩ := h
          exact Or.inr ⟨j + 1, by omega, by omega⟩

/-- The code that chooses an address and goes there, laid down at an address. -/
def choicePieces (table start : Nat) : List Piece :=
  selectPieces table (start + addressSize * (3 * instructionSize)) start addressSize 0 ++
    [.instruction 0 0 (.known 0)]

/-- The code of a choice has a fixed size, so the place of its jump is known in front of it. -/
theorem size_choicePieces (table start : Nat) : size (choicePieces table start) =
    addressSize * (3 * instructionSize) + instructionSize := by
  rw [choicePieces, size_append, size_selectPieces]
  rfl

/-- Choosing writes into its own code, and to the first byte of memory. -/
theorem destinations_choicePieces {table start a : Nat}
    (h : a ∈ destinations (choicePieces table start)) : a = 0 ∨
      (∃ j < addressSize, a = start + j * (3 * instructionSize) + instructionSize ∨
        a = start + j * (3 * instructionSize) + 2 * instructionSize) ∨
      start + addressSize * (3 * instructionSize) + nextField ≤ a ∧
        a < start + addressSize * (3 * instructionSize) + instructionSize := by
  rw [choicePieces, destinations_append] at h
  rcases List.mem_append.mp h with hselect | hlast
  · rcases destinations_selectPieces hselect with hinside | ⟨j, hj, hbyte⟩
    · exact Or.inr (Or.inl hinside)
    · simp only [addressSize, nextField, instructionSize] at hj hbyte ⊢
      exact Or.inr (Or.inr (by omega))
  · exact Or.inl (by simpa [destinations] using hlast)

/-- A choice writes to its own instructions and to nothing else. -/
theorem closed_choicePieces (table start : Nat) : Closed start (choicePieces table start) := by
  intro a ha
  rw [size_choicePieces]
  rcases destinations_choicePieces ha with hzero | ⟨j, hj, hinside⟩ | hbyte
  · exact Or.inl (by rw [hzero]; decide)
  · simp only [addressSize, instructionSize] at hj hinside ⊢
    exact Or.inr (by omega)
  · exact Or.inr (by omega)

/-- The copies that select a byte: of the place in the table into the lookup, of the low byte of where
the selected byte stands into the instruction behind, and of that byte into the jump. -/
def selectCopies (table jump place start i : Nat) : List Machine.Copy :=
  [⟨immediate, start + instructionSize + sourceField, start + instructionSize⟩,
    ⟨addTable + (table % 256 + i) * 256 + place, start + 2 * instructionSize + sourceField,
      start + 2 * instructionSize⟩,
    ⟨table + place + i, jump + nextField + i, start + 3 * instructionSize⟩]

/-- The copies that select `count` bytes of the address at a place in the table, from `i` on. -/
def selectAllCopies (table jump place : Nat) : Nat → Nat → Nat → List Machine.Copy
  | _, 0, _ => []
  | start, count + 1, i =>
      selectCopies table jump place start i ++
        selectAllCopies table jump place (start + 3 * instructionSize) count (i + 1)

theorem length_selectAllCopies (table jump place : Nat) : ∀ (count start i : Nat),
    (selectAllCopies table jump place start count i).length = count * 3
  | 0, _, _ => by rw [Nat.zero_mul]; rfl
  | count + 1, start, i => by
      rw [selectAllCopies, List.length_append, length_selectAllCopies table jump place count]
      exact (Nat.add_comm _ _).trans (Nat.succ_mul count 3).symm

/-- Each byte of the address is copied into the jump. -/
theorem exists_selectAllCopies {table jump place : Nat} : ∀ {count start i j : Nat}, i ≤ j →
    j < i + count → ∃ copy ∈ selectAllCopies table jump place start count i,
      copy.source = table + place + j ∧ copy.destination = jump + nextField + j
  | 0, _, _, _, hlow, hhigh => by omega
  | count + 1, start, i, j, hlow, hhigh => by
      rw [selectAllCopies]
      rcases Nat.eq_or_lt_of_le hlow with rfl | hlater
      · refine ⟨⟨table + place + i, jump + nextField + i, start + 3 * instructionSize⟩,
          List.mem_append_left _ ?_, rfl, rfl⟩
        exact List.mem_cons_of_mem _ (List.mem_cons_of_mem _ List.mem_cons_self)
      · have hrest : ∃ copy ∈ selectAllCopies table jump place (start + 3 * instructionSize) count
            (i + 1), copy.source = table + place + j ∧ copy.destination = jump + nextField + j :=
          exists_selectAllCopies hlater (by omega)
        obtain ⟨copy, hcopy, hends⟩ := hrest
        exact ⟨copy, List.mem_append_right _ hcopy, hends⟩

/-- The copies that choose the address at a place in the table, and the jump there. -/
def choiceCopies (table place start target : Nat) : List Machine.Copy :=
  selectAllCopies table (start + addressSize * (3 * instructionSize)) place start addressSize 0 ++
    [⟨0, 0, target⟩]

end Assembly

namespace Linked

/-- A table of addresses, and the place of the chosen one in it.  `bytes` are those of the chosen
address, and `jump` is the instruction that they are copied into. -/
structure Chosen (L : Linked) (table jump place : Nat) (bytes : Contents) : Prop where
  carries : table % 256 + place + addressSize ≤ 256
  code : codeStart ≤ table
  entry : ∀ i < addressSize, table + place + i < L.stop ∧
    table + place + i ∉ destinations L.pieces ∧ L.image (table + place + i) = bytes i
  tables : ∀ a, addTable ≤ a → a < codeStart → a ∉ destinations L.pieces
  start : codeStart ≤ jump
  fits : jump + instructionSize ≤ L.stop

section Select

variable {L : Linked} {table jump place start i : Nat} {bytes c d : Contents}
  {before behind : List Piece}

/-- An instruction of which the low byte of its source was changed. -/
theorem step_of_lowByte {source destination next pc : Nat}
    (hpieces : L.pieces = before ++ .instruction source destination (.known next) :: behind)
    (hpc : pc = codeStart + Assembly.size before) (hintact : L.Intact c)
    (hkept : ∀ i, 0 < i → i < instructionSize → pc + i ∉ destinations L.pieces)
    (hs : (c pc).toNat + source % addressSpace / 256 * 256 < L.size) (hd : destination < L.size)
    (hn : next < addressSpace) (hmoves : next ≠ pc) :
    Step L.size c pc (c.set destination (c ((c pc).toNat + source % addressSpace / 256 * 256)))
      next ∧ c.copy pc = ⟨(c pc).toNat + source % addressSpace / 256 * 256, destination, next⟩ := by
  have hcode := addTable_lt_codeStart
  have hspace := L.size_le
  have hfits := stop_eq hpieces hpc
  have hinstruction : instructionSize = 24 := rfl
  obtain ⟨hfrom, hto, hnext⟩ := image_instruction hpieces hpc
  have hfrom' : c.number (pc + sourceField) addressSize =
      (c pc).toNat + source % addressSpace / 256 * 256 := by
    rw [sourceField, Nat.add_zero]
    refine number_of_rest fun i hi => ?_
    have hlength : 1 + i < (wordBytes source).length := by
      rw [length_wordBytes, addressSize]
      omega
    have hbyte := hfrom (1 + i) hlength
    rw [sourceField, Nat.add_zero] at hbyte
    rw [Nat.add_assoc, hintact _ (by omega) (by omega) (hkept _ (by omega) (by omega)), hbyte]
    simp [wordContents, hlength]
  have hto' := field_of_kept destinationField hpieces hpc hintact (by decide)
    (fun i hi => by
      simp only [addressSize, destinationField] at hi ⊢
      rw [Nat.add_assoc]
      exact hkept _ (by omega) (by omega)) hto
  have hnext' := field_of_kept nextField hpieces hpc hintact (by decide)
    (fun i hi => by
      simp only [addressSize, nextField] at hi ⊢
      rw [Nat.add_assoc]
      exact hkept _ (by omega) (by omega)) hnext
  rw [Nat.mod_eq_of_lt (by omega)] at hto'
  rw [L.known, Nat.mod_eq_of_lt hn] at hnext'
  refine ⟨step_of_fields hpieces hpc hfrom' hto' hnext' hs hd hmoves, ?_⟩
  rw [Contents.copy, hfrom', hto', hnext']

/-- With the place in its low byte the source of the lookup is the entry for the sum. -/
theorem number_placeSource {source : Nat} (hplace : (d immediate).toNat = place)
    (hsource : source + place < 256) :
    (patchedField d [(immediate, sourceField)] sourceField (addTable + source * 256)).number 0
      addressSize = addTable + source * 256 + place := by
  rw [number_lowByte, hplace]
  simp only [addTable, addressSpace]
  omega

/-- The place is not written to the destination of the lookup. -/
theorem number_placeDestination {target : Nat} (htarget : target < addressSpace) :
    (patchedField d [(immediate, sourceField)] destinationField (target + sourceField)).number 0
      addressSize = target := by
  rw [number_of_none]
  · exact Nat.mod_eq_of_lt htarget
  · intro f hf j hj
    obtain rfl := List.mem_singleton.mp hf
    simp only [sourceField, destinationField]
    omega

/-- The copy of the place into the next instruction is as it was laid down. -/
theorem copy_place {table target : Nat} (hpieces : L.pieces = before ++ patchedPieces start
      [(immediate, sourceField)] table (target + sourceField) ++ behind)
    (hstart : start = codeStart + Assembly.size before) (hintact : L.Intact c)
    (hfits : start + 3 * instructionSize ≤ L.stop)
    (hkept : ∀ a, start ≤ a → a < start + instructionSize → a ∉ destinations L.pieces) :
    c.copy start = ⟨immediate, start + instructionSize + sourceField, start + instructionSize⟩ := by
  have hstop : L.stop ≤ L.size := Nat.le_add_right _ _
  have hspace := L.size_le
  have hinstruction : instructionSize = 24 := rfl
  have hpatch : L.pieces = before ++ .instruction immediate (start + instructionSize + sourceField)
      (.known (start + instructionSize)) :: (.instruction table (target + sourceField)
        (.known (start + instructionSize + instructionSize)) :: behind) := by
    rw [hpieces]
    simp [patchedPieces, patchPieces]
  obtain ⟨hfrom, hto, hnext⟩ := fields_of_kept hpatch hstart hintact
    (fun i hi => hkept (start + i) (by omega) (by omega))
    (isData_of_lt (by decide)).lt_size (by simp only [sourceField]; omega)
  rw [L.known, Nat.mod_eq_of_lt (by omega)] at hnext
  rw [Contents.copy, hfrom, hto, hnext]

/-- The low byte of where a byte of the chosen address stands is looked up, and becomes the low byte
of the source of the next instruction. -/
theorem run_lookUpPlace {source : Nat} (hpieces : L.pieces = before ++ patchedPieces start
      [(immediate, sourceField)] (addTable + source * 256) (start + 2 * instructionSize + sourceField) ++
        behind)
    (hstart : start = codeStart + Assembly.size before) (hsource : source + place < 256)
    (htables : ∀ a, addTable ≤ a → a < codeStart → a ∉ destinations L.pieces)
    (hfits : start + 3 * instructionSize ≤ L.stop)
    (hkept : ∀ a, start ≤ a → a < start + 2 * instructionSize → a ≠ start + instructionSize →
      a ∉ destinations L.pieces)
    (hplace : (d immediate).toNat = place) (hintact : L.Intact c) (hshows : L.Shows d c) :
    ∃ c', Trail L.size
        [⟨immediate, start + instructionSize + sourceField, start + instructionSize⟩,
          ⟨addTable + source * 256 + place, start + 2 * instructionSize + sourceField,
            start + 2 * instructionSize⟩] c start
        (c'.set (start + 2 * instructionSize) (UInt8.ofNat (source + place)))
        (start + 2 * instructionSize) ∧ L.Intact c' ∧ L.Shows d c' ∧
      ∀ a, a ≠ start + instructionSize → c' a = c a := by
  have hcode := addTable_lt_codeStart
  have hstop : L.stop ≤ L.size := Nat.le_add_right _ _
  have hspace := L.size_le
  have hinstruction : instructionSize = 24 := rfl
  have hsum : addTable ≤ addTable + source * 256 + place ∧
      addTable + source * 256 + place < codeStart := by
    simp only [addTable, codeStart]
    omega
  have hfrom := number_placeSource (d := d) hplace hsource
  have hto : (patchedField d [(immediate, sourceField)] destinationField
      (start + 2 * instructionSize + sourceField)).number 0 addressSize =
      start + 2 * instructionSize := number_placeDestination (by omega)
  have hreads := copy_place hpieces hstart hintact hfits fun a hlow hhigh =>
    hkept a hlow (by omega) (by omega)
  obtain ⟨c', hclimbs, hintact', hshows', hcopies, hother⟩ := run_patching hpieces hstart
    (fun a hlow hhigh hne => by
      simp only [List.length_singleton, List.mem_singleton, forall_eq, sourceField] at hhigh hne
      exact hkept a hlow (by omega) (by omega))
    (by decide) (by decide) hintact hshows hfrom hto
  simp only [List.length_singleton, List.mem_singleton, forall_eq, sourceField, Nat.one_mul]
    at hclimbs hcopies hother
  have hlast : start + 2 * instructionSize = start + instructionSize + instructionSize := by ring
  have hsecond := hcopies.step (by omega) (by omega)
  have hreads' : c'.copy (start + instructionSize) = ⟨addTable + source * 256 + place,
      start + 2 * instructionSize + sourceField, start + 2 * instructionSize⟩ := by
    rw [Contents.copy, hcopies.source, hcopies.destination, hcopies.next, hlast]
    rfl
  have hlook : c' (addTable + source * 256 + place) = UInt8.ofNat (source + place) := by
    rw [hintact' _ hsum.1 (by omega) (htables _ hsum.1 hsum.2)]
    exact L.sums _ _ (by omega) (by omega)
  rw [hlook, ← hlast] at hsecond
  obtain ⟨hfirst, hrises⟩ := hclimbs.step_of_one
  exact ⟨c', .more hfirst hrises hreads (.one hsecond (by omega) hreads'), hintact', hshows',
    fun a hne => hother a (by omega)⟩

/-- One byte of the chosen address is copied into the jump. -/
theorem run_selectPiece (hchosen : L.Chosen table jump place bytes)
    (hpieces : L.pieces = before ++ selectPiece table jump start i ++ behind)
    (hstart : start = codeStart + Assembly.size before) (hi : i < addressSize)
    (hbehind : start + 3 * instructionSize ≤ jump)
    (hkept : ∀ a, start ≤ a → a < start + 3 * instructionSize → a ≠ start + instructionSize →
      a ≠ start + 2 * instructionSize → a ∉ destinations L.pieces)
    (hplace : (d immediate).toNat = place) (hintact : L.Intact c) (hshows : L.Shows d c) :
    ∃ c', Trail L.size (selectCopies table jump place start i) c start c'
        (start + 3 * instructionSize) ∧ L.Intact c' ∧ L.Shows d c' ∧
      c' (jump + nextField + i) = bytes i ∧
      ∀ a, a ≠ start + instructionSize → a ≠ start + 2 * instructionSize →
        a ≠ jump + nextField + i → c' a = c a := by
  have hcode := addTable_lt_codeStart
  have hcarries := hchosen.carries
  have hfits := hchosen.fits
  have hstop : L.stop ≤ L.size := Nat.le_add_right _ _
  have hspace := L.size_le
  have hinstruction : instructionSize = 24 := rfl
  have htable := hchosen.code
  simp only [addressSize] at hi hcarries
  obtain ⟨hentry, hentry', hbyte⟩ := hchosen.entry i hi
  have hselector : L.pieces = (before ++ patchedPieces start [(immediate, sourceField)]
      (addTable + (table % 256 + i) * 256) (start + 2 * instructionSize + sourceField)) ++
      .instruction (table + i) (jump + nextField + i)
        (.known (start + 2 * instructionSize + instructionSize)) :: behind := by
    rw [hpieces, selectPiece]
    simp
  have hselector' : start + 2 * instructionSize = codeStart + Assembly.size (before ++
      patchedPieces start [(immediate, sourceField)] (addTable + (table % 256 + i) * 256)
        (start + 2 * instructionSize + sourceField)) := by
    rw [size_append, size_patchedPieces, ← Nat.add_assoc, ← hstart]
    simp [instructionSize]
  obtain ⟨c₁, htrail, hintact₁, hshows₁, hother₁⟩ := run_lookUpPlace hselector hstart (by omega)
    hchosen.tables (by omega) (fun a hlow hhigh hne => hkept a hlow (by omega) hne (by omega))
    hplace hintact hshows
  have hmem : start + 2 * instructionSize ∈ destinations L.pieces := by
    rw [hselector, destinations_append, destinations_append, destinations_patchedPieces]
    simp [sourceField]
  have hmem' : jump + nextField + i ∈ destinations L.pieces := by
    rw [hselector]
    exact mem_destinations (List.mem_append_right _ List.mem_cons_self)
  have hintact₂ := hintact₁.set (v := UInt8.ofNat (table % 256 + i + place)) (Or.inr hmem)
  have hshows₂ := hshows₁.set_code (a := start + 2 * instructionSize)
    (v := UInt8.ofNat (table % 256 + i + place)) ⟨by omega, by omega⟩
  -- no carry goes out of the low byte, so the source is the place in the table
  have hfrom : ((c₁.set (start + 2 * instructionSize) (UInt8.ofNat (table % 256 + i + place)))
      (start + 2 * instructionSize)).toNat + (table + i) % addressSpace / 256 * 256 =
      table + place + i := by
    rw [Contents.set_self, UInt8.toNat_ofNat']
    have hmod : (table + i) % addressSpace = table + i := Nat.mod_eq_of_lt (by omega)
    rw [hmod]
    omega
  obtain ⟨hstep, hreads⟩ := step_of_lowByte hselector hselector' hintact₂
    (fun j hj hj' => hkept _ (by omega) (by omega) (by omega) (by omega)) (by omega)
    (by simp only [nextField]; omega) (by omega) (by omega)
  rw [hfrom, hintact₂ _ (by omega) hentry hentry', hbyte] at hstep
  rw [hfrom] at hreads
  refine ⟨_, htrail.append (.one hstep (by omega) hreads), hintact₂.set (Or.inr hmem'),
    hshows₂.set_code ⟨by omega, by simp only [nextField]; omega⟩, Contents.set_self _ _ _, ?_⟩
  intro a hone htwo hthree
  rw [Contents.set_of_ne hthree, Contents.set_of_ne htwo]
  exact hother₁ a hone

/-- All bytes of the chosen address from `i` on are copied into the jump. -/
theorem run_selectPieces (hchosen : L.Chosen table jump place bytes)
    (hplace : (d immediate).toNat = place) : ∀ {count start i : Nat} {before : List Piece}
    {c : Contents}, L.pieces = before ++ selectPieces table jump start count i ++ behind →
    start = codeStart + Assembly.size before → i + count = addressSize →
    start + count * (3 * instructionSize) ≤ jump →
    (∀ a, start ≤ a → a < start + count * (3 * instructionSize) →
      (∀ j < count, a ≠ start + j * (3 * instructionSize) + instructionSize ∧
        a ≠ start + j * (3 * instructionSize) + 2 * instructionSize) →
      a ∉ destinations L.pieces) → L.Intact c → L.Shows d c →
    ∃ c', Trail L.size (selectAllCopies table jump place start count i) c start c'
        (start + count * (3 * instructionSize)) ∧ L.Intact c' ∧ L.Shows d c' ∧
      (∀ j, i ≤ j → j < addressSize → c' (jump + nextField + j) = bytes j) ∧
      ∀ a, start + count * (3 * instructionSize) ≤ a →
        (∀ j, i ≤ j → j < addressSize → a ≠ jump + nextField + j) → c' a = c a
  | 0, start, i, before, c, _, _, hi, _, _, hintact, hshows => by
      refine ⟨c, ?_, hintact, hshows, fun j hj hj' => by omega, fun _ _ _ => rfl⟩
      rw [Nat.zero_mul, Nat.add_zero]
      exact .none c start
  | count + 1, start, i, before, c, hpieces, hstart, hi, hjump, hkept, hintact, hshows => by
      have hinstruction : instructionSize = 24 := rfl
      rw [selectPieces, List.append_assoc, List.append_assoc, ← List.append_assoc] at hpieces
      rw [Nat.add_mul] at hjump hkept
      obtain ⟨c₁, htrail, hintact₁, hshows₁, hbyte, hother⟩ := run_selectPiece hchosen hpieces
        hstart (by omega) (by omega) (fun a hlow hhigh hone htwo => by
          refine hkept a hlow (by omega) fun j hj => ?_
          cases j with
          | zero => omega
          | succ j =>
              rw [Nat.add_mul]
              omega) hplace hintact hshows
      have hpieces' : L.pieces = (before ++ selectPiece table jump start i) ++
          selectPieces table jump (start + 3 * instructionSize) count (i + 1) ++ behind := by
        rw [hpieces]
        simp
      have hstart' : start + 3 * instructionSize =
          codeStart + Assembly.size (before ++ selectPiece table jump start i) := by
        rw [size_append, size_selectPiece, ← Nat.add_assoc, ← hstart]
      obtain ⟨c₂, htrail', hintact₂, hshows₂, hbytes, hother'⟩ := run_selectPieces hchosen hplace
        hpieces' hstart' (by omega) (by omega) (fun a hlow hhigh hne => by
          refine hkept a (by omega) (by omega) fun j hj => ?_
          cases j with
          | zero => omega
          | succ j =>
              have hj' := hne j (by omega)
              rw [Nat.add_mul]
              omega) hintact₁ hshows₁
      have hend : start + (count + 1) * (3 * instructionSize) =
          start + 3 * instructionSize + count * (3 * instructionSize) := by ring
      refine ⟨c₂, ?_, hintact₂, hshows₂, fun j hj hj' => ?_, fun a ha hne => ?_⟩
      · rw [hend]
        exact htrail.append htrail'
      · -- the first byte is not written to again
        rcases Nat.lt_or_ge i j with hlater | hfirst
        · exact hbytes j hlater hj'
        · obtain rfl : j = i := by omega
          rw [hother' _ (by omega) fun j' hj' _ => by omega]
          exact hbyte
      · rw [hother' a (by omega) fun j hj hj' => hne j (by omega) hj']
        exact hother a (by omega) (by omega) (hne i (Nat.le_refl _) (by omega))

/-- The chosen address is copied into the jump, and then the jump goes there. -/
theorem run_choosing {target : Nat} (hchosen : L.Chosen table jump place (wordContents target))
    (hplace : (d immediate).toNat = place)
    (hpieces : L.pieces = before ++ choicePieces table start ++ behind)
    (hstart : start = codeStart + Assembly.size before)
    (hjump : jump = start + addressSize * (3 * instructionSize))
    (hkept : ∀ a, start ≤ a → a < jump + nextField →
      (∀ j < addressSize, a ≠ start + j * (3 * instructionSize) + instructionSize ∧
        a ≠ start + j * (3 * instructionSize) + 2 * instructionSize) →
      a ∉ destinations L.pieces) (hintact : L.Intact c) (hshows : L.Shows d c)
    (htarget : target < addressSpace) (hmoves : target ≠ jump) :
    ∃ c', Trail L.size (selectAllCopies table jump place start addressSize 0) c start c' jump ∧
      Step L.size c' jump c' target ∧ c'.copy jump = ⟨0, 0, target⟩ ∧ L.Intact c' ∧
      L.Shows d c' := by
  have hfits := hchosen.fits
  have hstop : L.stop ≤ L.size := Nat.le_add_right _ _
  have hinstruction : instructionSize = 24 := rfl
  have hselect : L.pieces = before ++ selectPieces table jump start addressSize 0 ++
      (.instruction 0 0 (.known 0) :: behind) := by
    rw [hpieces, choicePieces, hjump]
    simp
  have hlast : jump = codeStart + Assembly.size (before ++
      selectPieces table jump start addressSize 0) := by
    rw [size_append, size_selectPieces, ← Nat.add_assoc, ← hstart, hjump]
  obtain ⟨c', htrail, hintact', hshows', hbytes, -⟩ := run_selectPieces hchosen hplace hselect
    hstart (Nat.zero_add _) (Nat.le_of_eq hjump.symm) (fun a hlow hhigh hne =>
      hkept a hlow (by omega) hne) hintact hshows
  obtain ⟨hfrom, hto, -⟩ := image_instruction hselect hlast
  have hfield : ∀ i < nextField, jump + i ∉ destinations L.pieces := by
    intro i hi
    refine hkept _ (by omega) (by omega) fun j hj => ?_
    have hpiece : j * (3 * instructionSize) ≤ 7 * (3 * instructionSize) :=
      Nat.mul_le_mul_right _ (Nat.le_of_lt_succ hj)
    simp only [addressSize] at hjump
    omega
  have hzero := field_of_kept sourceField hselect hlast hintact' (by decide)
    (fun i hi => hfield i (by simp only [addressSize, nextField] at hi ⊢; omega)) hfrom
  have hzero' := field_of_kept destinationField hselect hlast hintact' (by decide)
    (fun i hi => by
      rw [Nat.add_assoc]
      refine hfield _ ?_
      simp only [addressSize, destinationField, nextField] at hi ⊢
      omega) hto
  have hnext : c'.number (jump + nextField) addressSize = target := by
    rw [← Nat.mod_eq_of_lt htarget, ← number_wordContents]
    refine Contents.number_congr fun i hi => ?_
    rw [Nat.zero_add]
    exact hbytes i (Nat.zero_le _) hi
  have hstep := step_of_fields hselect hlast hzero hzero' hnext (by simp only [Nat.zero_mod]; omega)
    (by simp only [Nat.zero_mod]; omega) hmoves
  rw [Contents.set_same] at hstep
  rw [← hjump] at htrail
  refine ⟨c', htrail, hstep, ?_, hintact', hshows'⟩
  rw [Contents.copy, hzero, hzero', hnext]
  rfl

end Select

end Linked

namespace Emit

open Linked

variable {L : Linked} {s t : State}

/-- What was emitted leads to an address. -/
structure Goes (L : Linked) (s t : State) (d : Contents) (pc : Nat) (Q : Contents → Prop) :
    Prop where
  run : Leads L t → ∀ c, L.Intact c → L.Shows d c → ∃ k c' d',
    Leaps L.size k c s.position c' pc t.position ∧ L.Intact c' ∧ L.Shows d' c' ∧ Q d'

/-- Code that does something and then goes on by a jump. -/
theorem Does.goes {u : State} {d : Contents} {pc : Nat} {P Q : Contents → Prop}
    (h : Does L s u d P) (hgrows : Grows u t) (h' : ∀ d', P d' → Goes L u t d' pc Q) :
    Goes L s t d pc Q := by
  refine ⟨fun hleads c hintact hshows => ?_⟩
  obtain ⟨k, c', d', hclimbs, hintact', hshows', hP⟩ :=
    h.run (hleads.before hgrows) c hintact hshows
  obtain ⟨l, c'', d'', hleaps, hintact'', hshows'', hQ⟩ :=
    (h' d' hP).run hleads c' hintact' hshows'
  exact ⟨k + l, c'', d'', hclimbs.leaps hleaps, hintact'', hshows'', hQ⟩

/-- What was emitted copies the address at a place in a table into its last instruction, and that one
goes there. -/
structure Selects (L : Linked) (s t : State) (table place target : Nat) (d : Contents) : Prop where
  before : s.position + addressSize * (3 * instructionSize) < t.position
  run : Leads L t → ∀ c, L.Intact c → L.Shows d c → ∃ c',
    Trail L.size (selectAllCopies table (s.position + addressSize * (3 * instructionSize)) place
      s.position addressSize 0) c s.position c'
      (s.position + addressSize * (3 * instructionSize)) ∧
    Step L.size c' (s.position + addressSize * (3 * instructionSize)) c' target ∧
    c'.copy (s.position + addressSize * (3 * instructionSize)) = ⟨0, 0, target⟩ ∧
    L.Intact c' ∧ L.Shows d c'

theorem Selects.goes {table place target : Nat} {d : Contents}
    (h : Selects L s t table place target d) : Goes L s t d target fun d' => d' = d := by
  refine ⟨fun hleads c hintact hshows => ?_⟩
  obtain ⟨c', htrail, hstep, -, hintact', hshows'⟩ := h.run hleads c hintact hshows
  exact ⟨_, c', d, ⟨c', _, htrail.climbs, h.before, hstep⟩, hintact', hshows', rfl⟩

/-! ## Emitting a table

The table is aligned to a multiple of its size, by padding in front of it.  So its places
differ in their lowest byte only, and no sum has a carry. -/

/-- The next multiple is not further away than the alignment. -/
theorem alignUp_spec {value align : Nat} (halign : 1 < align)
    (hfits : value + align ≤ addressSpace) :
    value ≤ alignUp value align ∧ alignUp value align % align = 0 := by
  unfold alignUp
  rw [if_neg (Nat.not_le.mpr halign)]
  have hdiv := Nat.div_add_mod (value + align - 1) align
  have hmod := Nat.mod_lt (value + align - 1) (Nat.lt_trans Nat.zero_lt_one halign)
  rw [Nat.mul_comm] at hdiv
  rw [Nat.mod_eq_of_lt (by omega)]
  exact ⟨by omega, Nat.mul_mod_left _ _⟩

/-- A jump over aligned pieces, with zeros in front of them. -/
def alignedPieces (position align : Nat) (pieces : List Piece) : List Piece :=
  .instruction 0 0 (.known (alignUp (position + instructionSize) align + size pieces)) ::
    .bytes (List.replicate (alignUp (position + instructionSize) align -
      (position + instructionSize)) 0) :: pieces

theorem run_jumpOverAligned (align : Nat) (pieces : List Piece) (s : State) :
    jumpOverAligned align pieces s = .ok (alignUp (s.position + instructionSize) align)
      (s.emit (alignedPieces s.position align pieces)) := by
  show (instruction 0 0 (alignUp (s.position + instructionSize) align + size pieces) >>= fun _ =>
    push (.bytes (List.replicate (alignUp (s.position + instructionSize) align -
      (s.position + instructionSize)) 0)) >>= fun _ =>
    pieces.forM push >>= fun _ => pure (alignUp (s.position + instructionSize) align)) s = _
  rw [run_bind (run_instruction _ _ _ s), run_bind (run_push _ _),
    run_bind (run_forM_push pieces _), State.emit_emit, State.emit_emit]
  rfl

/-- Aligned pieces with nothing that writes are jumped over, and stay. -/
theorem jumpOverAligned_exec (L : Linked) {align : Nat} {pieces : List Piece} (halign : 1 < align)
    (hsmall : align ≤ Machine.scratchSize) (hpieces : destinations pieces = []) :
    Exec (jumpOverAligned align pieces) s fun a t => Effect L s t id ∧ (Leads L t →
      a % align = 0 ∧ codeStart ≤ a ∧ (∀ x, a ≤ x → x < a + size pieces → Steady t x) ∧
      ∃ before, t.pieces.toList = before ++ pieces ∧ a = codeStart + size before) := by
  refine .good fun hgood => ?_
  have hdestinations : destinations (.bytes (List.replicate (alignUp (s.position + instructionSize)
      align - (s.position + instructionSize)) 0) :: pieces) = [] := hpieces
  have hclosed : Closed s.position (alignedPieces s.position align pieces) :=
    closed_jump hdestinations
  have hgood' := hgood.emit hclosed
  have hsize : size (alignedPieces s.position align pieces) = instructionSize +
      (alignUp (s.position + instructionSize) align - (s.position + instructionSize) +
        size pieces) := by
    simp [alignedPieces, Assembly.size, Piece.size]
  have hfits : Leads L (s.emit (alignedPieces s.position align pieces)) →
      s.position + instructionSize + align ≤ addressSpace := by
    intro hleads
    have hstop := hleads.position_le hgood'
    have hspace := L.size_le
    rw [State.position_emit, hsize] at hstop
    unfold Linked.size at hspace
    omega
  refine Exec.of_run (run_jumpOverAligned align pieces s) hclosed fun _ => ⟨?_, fun hleads => ?_⟩
  · refine effect_jump hgood hdestinations fun hleads => ?_
    obtain ⟨hlow, -⟩ := alignUp_spec halign (hfits hleads)
    simp only [Assembly.size, List.map_cons, List.sum_cons, Piece.size, List.length_replicate]
    omega
  · obtain ⟨hlow, hmod⟩ := alignUp_spec halign (hfits hleads)
    have hstart := hgood.position
    refine ⟨hmod, by omega, fun x hx hx' => ?_, s.pieces.toList ++ [.instruction 0 0
      (.known (alignUp (s.position + instructionSize) align + size pieces)),
      .bytes (List.replicate (alignUp (s.position + instructionSize) align -
        (s.position + instructionSize)) 0)], ?_, ?_⟩
    · refine steady_jump hgood hdestinations (by omega) ?_
      simp only [Assembly.size, List.map_cons, List.sum_cons, Piece.size, List.length_replicate] at hx' ⊢
      omega
    · rw [toList_emit, alignedPieces]
      simp
    · rw [size_append]
      simp only [Assembly.size, List.map_cons, List.map_nil, List.sum_cons, List.sum_nil, Piece.size,
        List.length_replicate] at hstart ⊢
      omega

/-! ## Emitting a choice

Emission pushes the instructions one after the other, and the list of them is the one the first
half speaks of. -/

/-- By induction on the number of bytes, with the place of the next one. -/
theorem run_select (table jump : Nat) : ∀ (count i : Nat) (s : State),
    select table jump count i s = .ok () (s.emit (selectPieces table jump s.position count i))
  | 0, _, s => by
      rw [selectPieces, State.emit_nil]
      rfl
  | count + 1, i, s => by
      have hposition : (s.emit (selectPiece table jump s.position i)).position =
          s.position + 3 * instructionSize := by
        show s.position + Assembly.size _ = _
        rw [size_selectPiece]
      have hrest := run_select table jump count (i + 1) (s.emit (selectPiece table jump s.position i))
      rw [hposition, State.emit_emit] at hrest
      rw [selectPieces, ← hrest, selectPiece, ← State.emit_emit]
      show (patched [(immediate, sourceField)] (addTable + (table % 256 + i) * 256)
        (s.position + 2 * instructionSize + sourceField) >>= fun _ =>
        instruction (table + i) (jump + nextField + i)
          (s.position + 2 * instructionSize + instructionSize) >>= fun _ =>
        select table jump count (i + 1)) s = _
      rw [run_bind (run_patched _ _ _ s), run_bind (run_instruction _ _ _ _)]

theorem run_choose (table : Nat) (s : State) : (do
      select table (s.position + addressSize * (3 * instructionSize)) addressSize 0
      instruction 0 0 0) s = .ok () (s.emit (choicePieces table s.position)) := by
  rw [choicePieces, ← State.emit_emit, run_bind (run_select table _ addressSize 0 s),
    run_instruction]

/-- The code behind a table goes to the address at a place in it. -/
theorem choice_exec (L : Linked) (table : Nat) :
    Exec (do select table (s.position + addressSize * (3 * instructionSize)) addressSize 0
             instruction 0 0 0) s fun _ t => Kept s t ∧ t.mark = s.mark ∧
      t.position = s.position + addressSize * (3 * instructionSize) + instructionSize ∧
      ∀ d place target, (d immediate).toNat = place →
        (Leads L t → codeStart ≤ table ∧ table % 256 + place + addressSize ≤ 256 ∧
          ∀ i < addressSize, Steady s (table + place + i) ∧
            L.image (table + place + i) = wordContents target i) →
        target < addressSpace → target ≤ s.position ∨ t.position ≤ target →
        Selects L s t table place target d := by
  refine .good fun hgood => ?_
  have hclosed := closed_choicePieces table s.position
  have hgood' := hgood.emit hclosed
  have hgrows : Grows s (s.emit (choicePieces table s.position)) := .emit hclosed
  refine Exec.of_run (run_choose table s) hclosed fun _ => ?_
  have hposition : (s.emit (choicePieces table s.position)).position =
      s.position + addressSize * (3 * instructionSize) + instructionSize := by
    rw [State.position_emit, size_choicePieces, Nat.add_assoc]
  refine ⟨Kept.emit _ _, State.mark_emit _ _, hposition, ?_⟩
  intro d place target hplace hentry htarget haway
  rw [hposition] at haway
  have hbefore : s.position + addressSize * (3 * instructionSize) <
      (s.emit (choicePieces table s.position)).position := by
    rw [hposition]
    exact Nat.lt_add_of_pos_right (by decide)
  refine ⟨hbefore, fun hleads c hintact hshows => ?_⟩
  obtain ⟨hcode, hcarries, hentry⟩ := hentry hleads
  have hstop := hleads.position_le hgood'
  have hstart := hgood.position
  have htable := addTable_lt_codeStart
  have hinstruction : nextField < instructionSize := by decide
  have hselect : 0 < addressSize * (3 * instructionSize) := by decide
  generalize hjump : s.position + addressSize * (3 * instructionSize) = jump at hposition haway ⊢
  rw [hposition] at hstop
  have hchosen : L.Chosen table jump place (wordContents target) := by
    refine ⟨hcarries, hcode, fun i hi => ?_, fun a hlow hhigh => ?_, by omega, hstop⟩
    · obtain ⟨hsteady, himage⟩ := hentry i hi
      rcases hleads.steady hgood' (hsteady.mono hgood hgrows) with hdata | ⟨-, hbound, hkept⟩
      · have hbelow : table + place + i < L.stop := by
          rcases hsteady with h | h <;> omega
        exact absurd ⟨by omega, hbelow⟩ hdata.not_code
      · exact ⟨hbound, hkept, himage⟩
    · rcases hleads.steady hgood' (Or.inl hhigh) with hdata | ⟨-, -, hkept⟩
      · have hfits : codeStart ≤ L.stop := codeStart_le_stop
        exact absurd ⟨hlow, by omega⟩ hdata.not_code
      · exact hkept
  have hkept : ∀ a, s.position ≤ a → a < jump + nextField →
      (∀ j < addressSize, a ≠ s.position + j * (3 * instructionSize) + instructionSize ∧
        a ≠ s.position + j * (3 * instructionSize) + 2 * instructionSize) →
      a ∉ destinations L.pieces := by
    intro a hlow hhigh hne
    refine hleads.kept hgood (toList_emit _ _) rfl hlow (by omega) fun hmem => ?_
    rcases destinations_choicePieces hmem with hzero | ⟨j, hj, hinside⟩ | hbyte
    · omega
    · have hne' := hne j hj
      omega
    · omega
  obtain ⟨behind, hbehind, -⟩ := hleads.code
  rw [toList_emit] at hbehind
  exact run_choosing hchosen hplace hbehind hstart hjump.symm hkept hintact hshows htarget (by omega)

/-! ## Branches

The test of a condition leaves the place of an entry in the low byte of the immediate register.
The two entries are the addresses that the targets have in the image, so a branch goes where the
value of the condition says. -/

/-- The two addresses in a table. -/
theorem image_table {table : Nat} {first second : Word} {before behind : List Piece}
    (hpieces : L.pieces = before ++ [.word first, .word second] ++ behind)
    (htable : table = codeStart + Assembly.size before) {i : Nat} (hi : i < addressSize) :
    L.image (table + 0 + i) = wordContents (L.value first) i ∧
      L.image (table + addressSize + i) = wordContents (L.value second) i := by
  have hlength : ∀ w, i < ((Piece.word w).fill L.value).length := by
    intro w
    rwa [Piece.fill, length_wordBytes]
  have hfirst := L.code before (.word first) ([.word second] ++ behind)
    (by rw [hpieces]; simp) i (hlength first)
  have hsecond := L.code (before ++ [.word first]) (.word second) behind
    (by rw [hpieces]; simp) i (hlength second)
  have hsize : codeStart + Assembly.size (before ++ [.word first]) = table + addressSize := by
    rw [size_append, htable, Nat.add_assoc]
    rfl
  rw [hsize] at hsecond
  rw [Nat.add_zero, hsecond, htable, hfirst]
  have hbytes : ∀ n, i < (wordBytes n).length := fun n => by rwa [length_wordBytes]
  constructor <;> simp [Piece.fill, wordContents, hbytes]

/-- The address at the place that the truth of a condition leads to. -/
theorem image_place {table : Nat} {first second : Word} {before behind : List Piece}
    (hpieces : L.pieces = before ++ [.word first, .word second] ++ behind)
    (htable : table = codeStart + Assembly.size before) {i : Nat} (hi : i < addressSize)
    (zero : Bool) :
    L.image (table + (if zero then addressSize else 0) + i) =
      wordContents (L.value (if zero then second else first)) i := by
  obtain ⟨hfirst, hsecond⟩ := image_table hpieces htable hi
  cases zero with
  | true => exact hsecond
  | false => exact hfirst

/-- What a test that comes out one way or the other says about its condition. -/
theorem test_eq_some {w : Source.World} {σ : Source.Slots} {condition : Expr} {m m' : Source.Store}
    {b : Bool} {width : Nat} (hwidth : condition.type.width = some width)
    (h : Source.test w σ condition m = some (b, m')) :
    ∃ x, Source.eval w σ m condition = some x ∧ b = !decide (x % 256 ^ width = 0) ∧
      m' = w.forget m (Source.temporaries σ.mark condition ++
        [register σ.mark, register σ.mark + 1]) := by
  unfold Source.test at h
  rw [hwidth] at h
  cases hx : Source.eval w σ m condition with
  | none =>
      rw [hx] at h
      cases h
  | some x =>
      rw [hx] at h
      obtain ⟨rfl, rfl⟩ := Prod.mk.inj (Option.some.inj h)
      exact ⟨x, rfl, by simp, rfl⟩

/-- The part of a branch behind its condition. -/
def turn (condition : Expr) (taken otherwise : Target) : Emitter Unit := do
  let width ← widthOf condition.type condition.site
  logicalNot width condition.site
  let table ← jumpOverAligned 16
    [.word (.address taken none), .word (.address otherwise none)]
  let jump := (← position) + addressSize * 3 * instructionSize
  select table jump addressSize 0
  instruction 0 0 0

/-- What a branch does behind its condition, from `s` over `v` to `t`.  First so many low bytes of the
immediate register are tested; from `v`, behind the table of the targets, the one at the place that the
test left is chosen. -/
structure Turning (L : Linked) (width : Nat) (taken otherwise : Target) (table : Nat)
    (s v t : State) : Prop where
  kept : Kept s t
  mark : t.mark = s.mark
  tested : s.position ≤ v.position
  chosen : t.position = v.position + addressSize * (3 * instructionSize) + instructionSize
  grows : Grows v t
  laid : Leads L t → table % 16 = 0 ∧ v.position = table + 2 * addressSize ∧ ∃ before,
    v.pieces.toList = before ++ [.word (.address taken none), .word (.address otherwise none)] ∧
    table = codeStart + Assembly.size before
  tests : ∀ d, Does L s v d (Leaves [register s.mark, register s.mark + 1]
    (if d.number immediate width = 0 then Constant.truth else 0) d)
  selects : ∀ (d : Contents) (zero : Bool) (target : Nat),
    (d immediate).toNat = (if zero then addressSize else 0) →
    L.value (.address (if zero then otherwise else taken) none) = target → target < addressSpace →
    target ≤ v.position ∨ t.position ≤ target →
    Selects L v t table (if zero then addressSize else 0) target d

theorem Turning.longer {width table : Nat} {taken otherwise : Target} {v : State}
    (h : Turning L width taken otherwise table s v t) : v.position < t.position := by
  rw [h.chosen, Nat.add_assoc]
  exact Nat.lt_add_of_pos_right (by decide)

/-- The place in the table is what the logical not of the condition left. -/
theorem place_of_test {temps : List Nat} {width : Nat} {d d' : Contents} {zero : Bool}
    (h : Leaves temps (if d.number immediate width = 0 then Constant.truth else 0) d d')
    (hzero : decide (d.number immediate width = 0) = zero) :
    (d' immediate).toNat = if zero then addressSize else 0 := by
  have hlow := h.low
  rw [hlow, ← hzero]
  by_cases hnumber : d.number immediate width = 0 <;> simp [hnumber, Constant.truth, addressSize]

/-- The table is emitted first, behind a jump over it, and the choice from it last. -/
theorem turning_exec (L : Linked) {condition : Expr} (taken otherwise : Target)
    (hinteger : condition.type.isInteger = true) :
    Exec (turn condition taken otherwise) s fun _ t => ∃ width table v,
      condition.type.width = some width ∧ width ≤ registerSize ∧
        Turning L width taken otherwise table s v t := by
  unfold turn
  refine (widthOf_exec condition.type condition.site).bind fun width w _ _ hwidthOf => ?_
  obtain ⟨rfl, hwidth⟩ := hwidthOf
  obtain ⟨hlow, hhigh⟩ := Ty.width_bounds hinteger hwidth
  refine (logicalNot_exec L condition.site hlow hhigh).bind fun _ u₂ _ hgrows₂ hnot => ?_
  obtain ⟨hkept₂, hmark₂, hfree, hdoes₂⟩ := hnot
  refine (jumpOverAligned_exec L (by decide) (by decide) rfl).bind
    fun table u₃ hgood₃ hgrows₃ htable => ?_
  obtain ⟨heffect₃, htable⟩ := htable
  refine .position ?_
  rw [Nat.mul_assoc]
  refine (choice_exec L table).mono fun _ t _ hgrows₄ hchoice => ?_
  obtain ⟨hkept₄, hmark₄, hchosen, hselects⟩ := hchoice
  refine ⟨width, table, u₃, hwidth, hhigh, (hkept₂.trans heffect₃.kept).trans hkept₄,
    (hmark₄.trans heffect₃.mark).trans hmark₂, (hgrows₂.trans hgrows₃).position_le, hchosen, hgrows₄,
    fun hleads => ?_, fun d => ?_, fun d zero target hplace htarget hbound haway => ?_⟩
  · obtain ⟨hmod, -, -, before, hpieces, hstart⟩ := htable (hleads.before hgrows₄)
    refine ⟨hmod, ?_, before, hpieces, hstart⟩
    rw [hgood₃.position, hpieces, size_append, ← Nat.add_assoc, ← hstart]
    rfl
  · refine (hdoes₂ d).trans hgrows₃ fun d₂ hd₂ => (heffect₃.does d₂).mono fun _ d₃ hd₃ => ?_
    subst hd₃
    exact hd₂
  have hsmall : (if zero then addressSize else 0) ≤ addressSize := by
    cases zero <;> decide
  have haddress : addressSize = 8 := rfl
  refine hselects d _ target hplace (fun hleads => ?_) hbound haway
  obtain ⟨hmod, hcode, hsteady, before, hpieces, hstart⟩ := htable (hleads.before hgrows₄)
  refine ⟨hcode, by omega, fun i hi => ⟨hsteady _ (by omega) ?_, ?_⟩⟩
  · simp only [Assembly.size, List.map_cons, List.map_nil, List.sum_cons, List.sum_nil, Piece.size]
    omega
  · obtain ⟨behind, hbehind, -⟩ := (hleads.before hgrows₄).code
    rw [hpieces] at hbehind
    rw [image_place hbehind hstart hi zero, ← htarget]
    cases zero <;> rfl

/-- Behind its condition a branch goes to one target or the other. -/
theorem Turning.goes {width table target : Nat} {taken otherwise : Target} {v : State}
    (h : Turning L width taken otherwise table s v t) (d : Contents) {zero : Bool}
    (hzero : decide (d.number immediate width = 0) = zero)
    (htarget : L.value (.address (if zero then otherwise else taken) none) = target)
    (hbound : target < addressSpace) (haway : target ≤ s.position ∨ t.position ≤ target) :
    Goes L s t d target (Leaves [register s.mark, register s.mark + 1]
      (if zero then Constant.truth else 0) d) := by
  have htested := h.tested
  refine (h.tests d).goes h.grows fun d₂ hd₂ => ?_
  have hplace := place_of_test hd₂ hzero
  obtain ⟨hrun⟩ := (h.selects d₂ zero target hplace htarget hbound
    (haway.imp_left (by omega))).goes
  refine ⟨fun hleads c hintact hshows => ?_⟩
  obtain ⟨k, c', d', hleaps, hintact', hshows', rfl⟩ := hrun hleads c hintact hshows
  refine ⟨k, c', d', hleaps, hintact', hshows', ?_⟩
  subst hzero
  simpa only [decide_eq_true_eq] using hd₂

/-- Behind its condition a branch goes to one target or the other: what is tested are the low bytes
of the immediate register, as many as the type of the condition has. -/
theorem turn_exec (L : Linked) {condition : Expr} (taken otherwise : Target)
    (hinteger : condition.type.isInteger = true) :
    Exec (turn condition taken otherwise) s fun _ t => Kept s t ∧ t.mark = s.mark ∧
      s.position < t.position ∧ ∃ width, condition.type.width = some width ∧
        width ≤ registerSize ∧ ∀ d zero, decide (d.number immediate width = 0) = zero →
          ∀ target, L.value (.address (if zero then otherwise else taken) none) = target →
            target < addressSpace → target ≤ s.position ∨ t.position ≤ target →
            Goes L s t d target (Leaves [register s.mark, register s.mark + 1]
              (if zero then Constant.truth else 0) d) := by
  refine (turning_exec L taken otherwise hinteger).mono fun _ t _ _ hturning => ?_
  obtain ⟨width, table, v, hwidth, hhigh, hturning⟩ := hturning
  exact ⟨hturning.kept, hturning.mark, Nat.lt_of_le_of_lt hturning.tested hturning.longer, width,
    hwidth, hhigh, fun d zero hzero target htarget hbound haway =>
      hturning.goes d hzero htarget hbound haway⟩

/-- A branch goes to one target or the other, as the source says. -/
theorem branch_exec (L : Linked) {vars : Variable → Prop} {σ : Source.Slots} {condition : Expr}
    (taken otherwise : Target) (hproper : condition.Proper vars)
    (hinteger : condition.type.isInteger = true) (hmark : σ.mark = s.mark)
    (hregisters : σ.registers = s.bindings.registers) :
    Exec (branch condition taken otherwise) s fun _ t => Kept s t ∧ t.mark = s.mark ∧
      s.position < t.position ∧ ∀ m d b m', Known L registerCount m d →
        Source.test L.world σ condition m = some (b, m') →
        ∀ target, L.value (.address (if b then taken else otherwise) none) = target →
          target < addressSpace → target ≤ s.position ∨ t.position ≤ target →
          Goes L s t d target (Known L registerCount m') := by
  refine .good fun hgood => ?_
  refine (expr_exec L hproper hregisters (Nat.le_of_eq hmark)).bind fun _ u _ hgrows hvalue => ?_
  refine (turn_exec L taken otherwise hinteger).mono fun _ t _ hgrows' hturn => ?_
  obtain ⟨hkept, hmark', hlonger, width, hwidth, hhigh, hgoes⟩ := hturn
  have hbefore := hgrows.position_le
  refine ⟨hvalue.kept.trans hkept, hmark'.trans hvalue.mark, by omega,
    fun m d b m' hknown htest target htarget hbound haway => ?_⟩
  obtain ⟨x, hx, rfl, rfl⟩ := test_eq_some hwidth htest
  have hcount : σ.mark ≤ registerCount := by
    rw [hmark]
    exact hgood.mark
  have hbelow := hknown.below hcount (Nat.le_refl _)
  refine (hvalue.does m x d hbelow hx).goes hgrows' fun d₁ hd₁ => ?_
  have htarget' : L.value (.address (if decide (x % 256 ^ width = 0) then otherwise else taken) none) =
      target := by
    rw [← htarget]
    cases decide (x % 256 ^ width = 0) <;> rfl
  have haway' : target ≤ u.position ∨ t.position ≤ target := by
    rcases haway with hbehind | hahead
    · exact Or.inl (by omega)
    · exact Or.inr hahead
  obtain ⟨hrun⟩ := hgoes d₁ _ (by rw [hd₁.low_number hhigh]) target htarget' hbound haway'
  refine ⟨fun hleads c hintact hshows => ?_⟩
  obtain ⟨k, c', d', hleaps, hintact', hshows', hd'⟩ := hrun hleads c hintact hshows
  have hleaves := hd₁.trans hd'
  rw [hvalue.mark, ← hmark] at hleaves
  exact ⟨k, c', d', hleaps, hintact', hshows', hknown.forget (Nat.le_refl _) hleaves.other⟩

end Emit

end ByteJump
