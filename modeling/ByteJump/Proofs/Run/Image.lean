import ByteJump.Proofs.LabelLayout
import ByteJump.Proofs.Run.Statements

set_option autoImplicit false

/-!
# Images as linked code

An image holds the tables and, behind them, the bytes of every piece in order, so what was emitted
for a program is linked code in the memory of a machine that runs the image.  Registers and scratch
memory hold zeros before the first step, and the last piece is an instruction that halts.

Three descriptions of a program in memory meet here: the buffer that emission and linking produce,
the pieces with the values of their words, and the contents of a machine that was started from the
image.  `Emission.linked` is the construction of linked code from an emission, with the proofs
that the tables and the pieces are where it says; `Emission.leads` says that the final state of
the emission leads into it.  The rest is about the start and the end: what registers hold before
the first step, and that a machine that gets behind the code halts.
-/

namespace ByteJump

open Assembly Memory

namespace Assembly

/-! ## Bytes of pieces -/

/-- The value of a word; zero for one that has a fault. -/
def valueOf (value : Word → Except Fault Nat) (w : Word) : Nat :=
  match value w with
  | .ok n => n
  | .error _ => 0

variable {value : Word → Except Fault Nat}

/-- A word that has a value is filled in with it. -/
theorem valueOf_ok {w : Word} {n : Nat} (h : value w = .ok n) : valueOf value w = n := by
  rw [valueOf, h]

/-- A piece that can be encoded is the piece filled in. -/
theorem fill_of_encode {piece : Piece} {data : List UInt8} (h : piece.encode value = .ok data) :
    data = piece.fill (valueOf value) := by
  cases piece with
  | bytes data' =>
      cases h
      rfl
  | instruction source destination next =>
      obtain ⟨n, hnext, rfl⟩ := Piece.encode_instruction.mp h
      rw [Piece.fill, valueOf_ok hnext]
  | word w =>
      obtain ⟨n, hw, rfl⟩ := Piece.encode_word.mp h
      rw [Piece.fill, valueOf_ok hw]

/-- Linked code is the bytes of its pieces one behind the other. -/
theorem toList_of_link {pieces : List Piece} {linked : Array UInt8}
    (h : link value pieces = .ok linked) :
    linked.toList = pieces.flatMap (Piece.fill (valueOf value)) := by
  suffices ∀ start : Array UInt8, pieces.foldlM (append value) start = .ok linked →
      linked.toList = start.toList ++ pieces.flatMap (Piece.fill (valueOf value)) from
    this #[] h
  clear h
  induction pieces with
  | nil =>
      intro start h
      cases h
      simp
  | cons piece rest ih =>
      intro start h
      obtain ⟨data, hdata, hrest⟩ := foldlM_append_eq_ok.mp h
      rw [ih _ hrest, fill_of_encode hdata]
      simp

/-- The bytes of a piece in linked code. -/
theorem getElem?_of_link {before behind : List Piece} {piece : Piece} {linked : Array UInt8}
    (h : link value (before ++ piece :: behind) = .ok linked) {i : Nat}
    (hi : i < (piece.fill (valueOf value)).length) :
    linked[size before + i]? = some (piece.fill (valueOf value))[i] := by
  have hbefore : (before.flatMap (Piece.fill (valueOf value))).length = size before := by
    simp [size, List.length_flatMap, Piece.length_fill]
  rw [← Array.getElem?_toList, toList_of_link h, List.flatMap_append, List.flatMap_cons,
    List.getElem?_append_right (by omega), hbefore, Nat.add_sub_cancel_left,
    List.getElem?_append_left hi, List.getElem?_eq_getElem hi]

end Assembly

namespace Emit

/-! ## The fixed part

The header and the tables are the same in every image, but for the entry. -/

section Preamble

variable (entry : Nat)

theorem size_addTableBytes : addTableBytes.size = addTableSize := by
  simp [addTableBytes]

/-- What stands in front of the tables. -/
theorem size_low : ((wordBytes entry).toArray ++
    Array.replicate (addTable - addressSize) (0 : UInt8)).size = addTable := by
  simp [length_wordBytes, addressSize, addTable]

/-- The registers hold zeros. -/
theorem preamble_low {a : Nat} (hlow : addressSize ≤ a) (hhigh : a < addTable) :
    (preamble entry)[a]? = some 0 := by
  have hword : (wordBytes entry).toArray.size = addressSize := by simp [length_wordBytes]
  have hlow' := size_low entry
  rw [preamble, Array.getElem?_append_left, Array.getElem?_append_left (by omega),
    Array.getElem?_append_right (by omega), hword, Array.getElem?_replicate, if_pos (by omega)]
  rw [Array.size_append]
  omega

/-- The entry of the addition table for two bytes. -/
theorem preamble_sum {a b : Nat} (ha : a < 256) (hb : b < 256) :
    (preamble entry)[addTable + a * 256 + b]? = some (UInt8.ofNat (a + b)) := by
  have hlow := size_low entry
  have hsize := size_addTableBytes
  have hcount : addTableSize = 256 * 256 := rfl
  rw [preamble, Array.getElem?_append_left, Array.getElem?_append_right (by omega), hlow,
    Nat.add_assoc, Nat.add_sub_cancel_left, addTableBytes, Array.getElem?_ofFn, dif_pos (by omega)]
  · have hsum : (a * 256 + b) / 256 + (a * 256 + b) % 256 = a + b := by omega
    rw [hsum]
  · rw [Array.size_append]
    omega

/-- The entry of the other table for a byte. -/
theorem preamble_not {a : Nat} (ha : a < 256) :
    (preamble entry)[notTable + a]? =
      some (if a = 0 then UInt8.ofNat Constant.truth else 0) := by
  have hlow := size_low entry
  have hsize := size_addTableBytes
  have htables : addTable + addTableSize = notTable := rfl
  rw [preamble, Array.getElem?_append_right (by rw [Array.size_append]; omega), Array.size_append,
    hlow, hsize, htables, Nat.add_sub_cancel_left, notTableBytes]
  have hone : (#[UInt8.ofNat Constant.truth] : Array UInt8).size = 1 := rfl
  have hcount : notTableSize = 256 := rfl
  by_cases hzero : a = 0
  · rw [if_pos hzero, Array.getElem?_append_left (by omega), hzero]
    rfl
  · rw [if_neg hzero, Array.getElem?_append_right (by omega), Array.getElem?_replicate,
      if_pos (by omega)]

end Preamble

/-! ## The linked code of an emission -/

/-- Where an image has what its program asks for by address: labels and strings where the emission
laid them down, and scratch memory behind the image. -/
def State.world (t : State) (image : Image) (careful : Bool) : Source.World where
  label l := (t.bindings.address? l).getD 0
  string text := (t.strings.lookup text).getD 0
  scratch := image.size
  careful := careful

section Emission

variable {p : Program} {b : Bindings} {log : List Event} {t : State} {artifact : Artifact}

/-- The image is the fixed part and the pieces. -/
theorem Emission.size_image (h : Emission p b log t artifact) :
    artifact.image.size = codeStart + size t.halted.pieces.toList := by
  obtain ⟨linked, hlink, himage⟩ := h.image
  rw [himage, Image.size, Array.size_append, size_preamble, size_of_link hlink]

/-- A byte of the fixed part of the image. -/
theorem Emission.getD_preamble (h : Emission p b log t artifact) {a : Nat} {byte : UInt8}
    (hbyte : (preamble (t.entry.getD codeStart))[a]? = some byte) :
    artifact.image.bytes.getD a 0 = byte := by
  obtain ⟨linked, -, himage⟩ := h.image
  obtain ⟨ha, -⟩ := Array.getElem?_eq_some_iff.mp hbyte
  rw [himage, Array.getD_eq_getD_getElem?, Array.getElem?_append_left ha, hbyte, Option.getD_some]

/-- The image of an emission, in memory with scratch memory behind it, is linked code. -/
def Emission.linked (h : Emission p b log t artifact)
    (hfits : artifact.image.size + Machine.scratchSize ≤ addressSpace) : Linked where
  pieces := t.halted.pieces.toList
  value := valueOf t.halted.word
  image a := artifact.image.bytes.getD a 0
  world := t.world artifact.image true
  points n := (t.points.lookup n).getD 0
  known n := rfl
  label_value label site := by
    show valueOf t.halted.word _ = (t.bindings.address? label).getD 0
    have hword : t.halted.word (.address (.label label) site) =
        match t.bindings.address? label with
        | some address => .ok address
        | none => .error (unplaced label site) := rfl
    rw [valueOf, hword]
    cases t.bindings.address? label <;> rfl
  point_value role serial site := by
    have hword : t.halted.word (.address (.point role serial) site) =
        match t.points.lookup serial with
        | some address => .ok address
        | none => .error (.internal
            ("label `" ++ role ++ "." ++ toString serial ++ "` was never placed")) := rfl
    rw [valueOf, hword]
    cases t.points.lookup serial <;> rfl
  code before piece behind hpieces i hi := by
    obtain ⟨linked, hlink, himage⟩ := h.image
    rw [hpieces] at hlink
    rw [himage, Array.getD_eq_getD_getElem?, Array.getElem?_append_right, size_preamble,
      Nat.add_assoc, Nat.add_sub_cancel_left, getElem?_of_link hlink hi, Option.getD_some]
    rw [size_preamble, Nat.add_assoc]
    exact Nat.le_add_right _ _
  sums a b ha hb := h.getD_preamble (preamble_sum _ ha hb)
  nots a ha := h.getD_preamble (preamble_not _ ha)
  scratch := h.size_image
  fits := by
    rw [← h.size_image]
    exact hfits
  careful := rfl

/-- Code is linked in front of the halt. -/
theorem Emission.leads (h : Emission p b log t artifact)
    (hfits : artifact.image.size + Machine.scratchSize ≤ addressSpace) :
    Leads (h.linked hfits) t where
  code := ⟨_, toList_emit t _, closed_instruction (by decide)⟩
  strings text a ha := by
    show (t.strings.lookup text).getD 0 = a
    rw [ha, Option.getD_some]
  points n a ha := by
    show (t.points.lookup n).getD 0 = a
    rw [ha, Option.getD_some]

/-! ## Images that fit -/

/-- The halt is the end of the image. -/
theorem Emission.size_halt (h : Emission p b log t artifact) :
    artifact.image.size = artifact.image.layout.halt + instructionSize := by
  rw [h.size_image, h.layout, State.halted, toList_emit, size_append, ← Nat.add_assoc, ← h.position]
  rfl

/-- The program was resolved, passes the check and has an image that leaves room for scratch
memory. -/
def runnable (check : Program → Bool) (resolved : Except Fault Program) (b : Bindings) : Bool :=
  match resolved with
  | .ok p =>
      match (p.generate b).1 with
      | .ok artifact => check p && decide
          (artifact.image.layout.halt + instructionSize + Machine.scratchSize ≤ addressSpace)
      | .error _ => false
  | .error _ => false

theorem exists_of_runnable {check : Program → Bool} {resolved : Except Fault Program}
    (h : runnable check resolved b = true) : ∃ p artifact, resolved = .ok p ∧
      (p.generate b).1 = .ok artifact ∧ check p = true ∧
      artifact.image.size + Machine.scratchSize ≤ addressSpace := by
  unfold runnable at h
  split at h
  · rename_i p
    split at h
    · rename_i artifact hgenerate
      rw [Bool.and_eq_true, decide_eq_true_eq] at h
      obtain ⟨log, t, hemission⟩ := emission_of_generate hgenerate
      exact ⟨p, artifact, rfl, hgenerate, h.1, hemission.size_halt ▸ h.2⟩
    · cases h
  · cases h

/-! ## The machine -/

/-- A byte of memory. -/
theorem getElem?_of_contents {m : Machine} {a : Nat} {v : UInt8} (ha : a < m.memory.size)
    (h : m.contents a = v) : m.memory[a]? = some v := by
  rw [Machine.contents, Array.getD_eq_getD_getElem?, Array.getElem?_eq_getElem ha,
    Option.getD_some] at h
  rw [Array.getElem?_eq_getElem ha, h]

/-- Memory is the image and zeros behind it. -/
theorem memory_ofImage (image : Image) :
    (Machine.ofImage image).memory = image.bytes ++ Array.replicate Machine.scratchSize 0 := rfl

/-- There are a few more bytes behind the image, to work with. -/
theorem size_ofImage (image : Image) :
    (Machine.ofImage image).memory.size = image.size + Machine.scratchSize := by
  rw [memory_ofImage, Array.size_append, Array.size_replicate, Image.size]

/-- Memory holds the image, and zeros behind it. -/
theorem contents_ofImage (image : Image) (a : Nat) :
    (Machine.ofImage image).contents a = image.bytes.getD a 0 := by
  rw [Machine.contents, memory_ofImage, Array.getD_eq_getD_getElem?, Array.getD_eq_getD_getElem?]
  rcases Nat.lt_or_ge a image.bytes.size with ha | ha
  · rw [Array.getElem?_append_left ha]
  · rw [Array.getElem?_append_right ha, Array.getElem?_eq_none ha, Array.getElem?_replicate]
    split <;> rfl

/-- A run starts at the first label that names the entry, or where the code starts. -/
theorem Emission.pc_entry (h : Emission p b log t artifact) :
    (Machine.ofImage artifact.image).pc = t.entry.getD codeStart % addressSpace := by
  have hpc : (Machine.ofImage artifact.image).pc =
      (Bytes.word? (Machine.ofImage artifact.image).memory entryAddress).getD 0 := by
    rw [Machine.ofImage, Machine.ofBytes]
  have hholds : Holds (Machine.ofImage artifact.image).memory.toList entryAddress
      (t.entry.getD codeStart) := by
    intro i hi
    have hword := h.entry_holds i hi
    have hsize := h.size_image
    have hlow : addressSize ≤ codeStart := by decide
    rw [Image.size, ← Array.length_toList] at hsize
    have hinside : entryAddress + i < artifact.image.bytes.toList.length := by
      rw [hsize, entryAddress]
      omega
    rw [memory_ofImage, Array.toList_append, List.getElem?_append_left hinside]
    exact hword
  rw [hpc, word?_of_holds hholds]
  rfl

/-- Without a label that names the entry a run starts where the code starts. -/
theorem Emission.pc_ofImage (h : Emission p b log t artifact) (hentry : t.entry = none) :
    (Machine.ofImage artifact.image).pc = codeStart := by
  rw [h.pc_entry, hentry]
  rfl

/-- Before the first step registers and scratch memory hold zeros. -/
theorem Emission.known_start (h : Emission p b log t artifact)
    (hfits : artifact.image.size + Machine.scratchSize ≤ addressSpace) :
    Known (h.linked hfits) registerCount (h.linked hfits).world.start
      (Machine.ofImage artifact.image).contents := by
  intro a v hreaches ha
  rw [Source.World.start, if_pos hreaches] at ha
  obtain rfl := Option.some.inj ha
  rw [contents_ofImage]
  rcases reaches_cases hreaches with ⟨hlow, hhigh⟩ | ⟨hlow, -⟩
  · refine h.getD_preamble (preamble_low _ ?_ ?_)
    · have hregisters : addressSize ≤ immediate + registerSize := by decide
      omega
    · rwa [register_registerCount] at hhigh
  · have hbehind : artifact.image.bytes.size ≤ a := Nat.le_trans (Nat.le_of_eq h.size_image) hlow
    rw [Array.getD_eq_getD_getElem?, Array.getElem?_eq_none hbehind]
    rfl

/-- A machine that gets to the end of the code halts there, with the memory it has. -/
theorem Emission.halts (h : Emission p b log t artifact)
    (hfits : artifact.image.size + Machine.scratchSize ≤ addressSpace) (hgood : Good t)
    {limit fuel : Nat} {m : Machine} (hmemory : m.memory.size = (h.linked hfits).size)
    (hintact : (h.linked hfits).Intact m.contents) (hpc : m.pc = t.position)
    (hhalted : m.halted = false) :
    ∃ final, Machine.runFor limit (fuel + 1) m = (final, none) ∧ final.halted = true ∧
      final.pc = t.position ∧ final.memory.size = m.memory.size ∧
      final.contents = m.contents := by
  have hposition := h.position
  have hpieces : (h.linked hfits).pieces =
      t.pieces.toList ++ .instruction 0 0 (.known t.position) :: [] := toList_emit t _
  have hcode := Linked.addTable_lt_codeStart
  refine Linked.runFor_of_halt limit fuel hpieces hposition (fun i hi hmem => ?_)
    hmemory hintact hpc hhalted
  rw [hpieces, destinations_append] at hmem
  rcases List.mem_append.mp hmem with hmem | hmem
  · rcases hgood.closed _ hmem with hlow | hin <;> omega
  · obtain hnone : t.position + i = 0 := List.mem_singleton.mp hmem
    omega

end Emission

end Emit

end ByteJump
