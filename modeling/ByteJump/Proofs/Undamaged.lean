import ByteJump.Proofs.Emit.Tame
import ByteJump.Proofs.Generations
import ByteJump.Proofs.Run.Image
import ByteJump.Proofs.Run.Legs

set_option autoImplicit false

/-!
# Images stay undamaged

Whatever a program without jumps to computed addresses, raw words and stores computes, its image is not
damaged by running it: at every moment of a run the next instruction is one that was emitted, and only
registers in use and patched address fields differ from the image.  The run can halt behind the code
only, and the only fault is a load through a pointer to outside memory.

The proof has a static half and a dynamic one.  Emitting such a program gives code in segments,
and what holds of the code when it is emitted holds when it is linked, whatever was bound before,
since a resolved program looks nothing up that it has not bound itself.  Runs of code in segments
keep to it: they go from one place between segments to the next, and change nothing but registers
in use and fields that are patched.  `Emission.undamaged` reads off what this means for the bytes
of the image, for the place a run stands at when it is stopped, and for the fault it may have.
-/

namespace ByteJump

open Assembly Memory

/-! ## Tidy emissions -/

namespace Emit

section Emission

variable {p : Program} {b : Bindings} {log : List Event} {t : State} {artifact : Artifact}

/-- Before any code there is nothing out of place. -/
theorem tidy_start : Tidy false (.start .none) :=
  ⟨rfl, Nat.le_refl _, Nat.zero_le _, .nil, by simp [State.start], by simp [State.start],
    by simp [State.start], by simp [State.start], by simp [State.start, Bindings.none],
    by simp [State.start]⟩

/-- The statements of the program are emitted from the start. -/
theorem Emission.tidy (h : Emission p .none log t artifact) (htame : p.tame = true) :
    Tidy false t := by
  have hrun := h.trace.run
  rw [emitAll_map_stmt] at hrun
  have hstatements : Stmt.listTame p.statements = true := by
    cases p
    exact htame
  exact ((stmts_lays p.statements hstatements (Nat.le_refl _)).run tidy_start _ t hrun).1

/-- Renaming nothing leaves a piece as it is. -/
theorem Piece.rename_same (piece : Piece) : piece.rename .same = piece := by
  have hword : ∀ w : Word, w.rename .same = w := by
    intro w
    cases w with
    | known value => rfl
    | constant value => rw [Word.rename, Expr.rename_same]
    | address target site =>
        cases target <;> cases site <;> rfl
  cases piece with
  | bytes data => rfl
  | instruction source destination next => rw [Piece.rename, hword]
  | word w => rw [Piece.rename, hword]

/-- On top of any bindings the same is emitted. -/
theorem Emission.fresh (hsettles : Settles p) (h : Emission p b log t artifact) :
    ∃ log' u, Emission p .none log' u artifact ∧ t = { u with bindings := t.bindings } := by
  have hgenerate : (p.generate .none).1 = .ok artifact := by
    rw [← generate_fresh hsettles b, h.generate]
  obtain ⟨log', u, h'⟩ := emission_of_generate hgenerate
  refine ⟨log', u, h', ?_⟩
  have hrun := h.trace.run
  have hrun' := h'.trace.run
  rw [emitAll_map_stmt] at hrun hrun'
  have hcarries : Carried .same b (stmts p.statements)
      (stmts (Stmt.renameList .same p.statements)) (.start .none) :=
    stmts_carried Renaming.same_faithful p.statements _
  have hcarried := hcarries.run
  have hstart : (State.start .none).carry .same b = .start b := by
    simp [State.carry, State.start, Bindings.carry, renameKeys, Bindings.none]
  rw [hrun', hstart, Stmt.renameList_same, hrun] at hcarried
  have hstate : t = u.carry .same b := by
    cases hcarried trivial
    rfl
  have hpieces : Piece.rename .same = id := funext Piece.rename_same
  rw [hstate]
  unfold State.carry
  rw [hpieces, Array.map_id]

/-- A point that occurs in the code of a program is placed. -/
theorem Emission.placed (hsettles : Settles p) (h : Emission p .none log t artifact) {piece : Piece}
    {role : String} {serial : Nat} (hpiece : piece ∈ t.pieces.toList)
    (hword : piece.word? = some (.address (.point role serial) none)) :
    ∃ a, t.points.lookup serial = some a := by
  have hrun := h.trace.run
  rw [emitAll_map_stmt] at hrun
  unfold Settles Ends at hsettles
  rw [run_code hrun] at hsettles
  have hpiece' : piece ∈ t.halted.pieces.toList := by
    rw [State.halted, toList_emit]
    exact List.mem_append_left _ hpiece
  obtain ⟨a, ha⟩ := hsettles piece hpiece' _ hword
  have haddress := ha none
  unfold State.address at haddress
  cases hlookup : t.points.lookup serial with
  | some a => exact ⟨a, rfl⟩
  | none =>
      have hnone : t.halted.points.lookup serial = none := hlookup
      simp [hnone] at haddress

/-- The code of a tidy emission is a row of segments. -/
theorem Emission.segmented (hsettles : Settles p) (h : Emission p .none log t artifact)
    (htidy : Tidy false t) (hfits : artifact.image.size + Machine.scratchSize ≤ addressSpace) :
    (h.linked hfits).Segmented t.highest t.pieces.toList := by
  have hvalue : ∀ serial a, t.points.lookup serial = some a → (h.linked hfits).points serial = a := by
    intro serial a ha
    show (t.points.lookup serial).getD 0 = a
    rw [ha, Option.getD_some]
  refine ⟨?_, htidy.highest, htidy.laid, fun piece hpiece role serial hword => ?_,
    fun a role serial hpiece => ?_⟩
  · show t.halted.pieces.toList = _
    rw [State.halted, toList_emit, htidy.position]
  · obtain ⟨a, ha⟩ := h.placed hsettles hpiece hword
    rw [hvalue serial a ha]
    exact (htidy.points _ (mem_of_lookup ha)).2
  · obtain ⟨x, hx⟩ := h.placed hsettles hpiece.mem rfl
    rw [hvalue serial x hx]
    exact htidy.jumps a role serial hpiece _ (mem_of_lookup hx) rfl

/-! ## Bytes that stay

A byte that differs is one of a register in use, the immediate among them, or of a field that some
instruction writes to.  As fields belong to instructions, the data in the code, constants and
tables among it, stays. -/

/-- Code of a tidy emission writes to registers in use, or patches. -/
theorem changes_cases {L : Linked} {n : Nat} {code : List Piece} (h : L.Segmented n code) {a : Nat}
    (ha : Slot n a ∨ codeStart ≤ a ∧ a ∈ destinations L.pieces) :
    Slot n a ∨ Patches codeStart code a := by
  have hcode : 0 < codeStart := by decide
  rcases ha with hslot | ⟨hlow, hmem⟩
  · exact Or.inl hslot
  rw [h.pieces, destinations_append] at hmem
  rcases List.mem_append.mp hmem with hmem | hmem
  · rcases h.laid.writes h.count hmem with hslot | hzero | hpatches
    · exact Or.inl hslot
    · omega
    · exact Or.inr hpatches
  · obtain hzero : a = 0 := List.mem_singleton.mp hmem
    omega

/-- Data is not patched. -/
theorem not_patches_data {code : List Piece} {a i : Nat} {piece : Piece}
    (hpiece : PieceAt codeStart code a piece) (hdata : piece.isInstruction = false)
    (hi : i < piece.size) : ¬ Patches codeStart code (a + i) := by
  intro hpatches
  obtain ⟨x, source, next, y, source', destination', next', -, hy, -, hfield⟩ := hpatches
  have hinside : y ≤ a + i ∧ a + i < y + instructionSize := by
    simp only [destinationField, nextField, instructionSize] at hfield ⊢
    omega
  rcases hpiece.apart hy with ⟨rfl, rfl⟩ | hleft | hright
  · cases hdata
  · omega
  · simp only [Piece.size] at hright
    omega

/-- The machine after a run of an image, and what stopped it: nothing of the image is damaged. -/
structure Undamaged (t : State) (artifact : Artifact) (limit : Nat) (final : Machine)
    (fault : Option Fault) : Prop where
  /-- the next instruction is one that was emitted -/
  instruction : ∃ source destination next,
    PieceAt codeStart t.halted.pieces.toList final.pc (.instruction source destination next)
  halt : final.halted = true → fault = none ∧ final.pc = artifact.image.layout.halt
  /-- a run that does not halt has used up its steps, or loads through a pointer to outside memory -/
  fault : final.halted = false → fault = some (.stepLimit limit) ∨
    ∃ before behind start pointer, t.pieces.toList = before ++ loadPieces start ++ behind ∧
      start = codeStart + size before ∧ final.pc = start + addressSize * instructionSize ∧
      Bytes.word? final.memory immediate = some pointer ∧ final.memory.size ≤ pointer ∧
      fault = some (.outOfBounds final.pc pointer)
  size : final.memory.size = (Machine.ofImage artifact.image).memory.size
  /-- only registers in use and patched address fields change -/
  changed : ∀ a, final.memory[a]? ≠ (Machine.ofImage artifact.image).memory[a]? →
    Slot artifact.stats.registers a ∨ Patches codeStart t.pieces.toList a
  /-- the entry and the stack pointer -/
  header : ∀ a < immediate, final.memory[a]? = artifact.image.bytes[a]?
  tables : ∀ a, addTable ≤ a → a < codeStart → final.memory[a]? = artifact.image.bytes[a]?
  /-- padding, addresses of labels and tables of branches -/
  data : ∀ a piece, PieceAt codeStart t.pieces.toList a piece → piece.isInstruction = false →
    ∀ i < piece.size, final.memory[a + i]? = artifact.image.bytes[a + i]?
  bytes : ∀ value a, (value, a) ∈ t.byteConstants → final.memory[a]? = some value
  strings : ∀ text a, (text, a) ∈ t.strings → ∀ i (h : i < text.toUTF8.toList.length),
    final.memory[a + i]? = some text.toUTF8.toList[i]

/-- The registers that are counted are those below the highest mark. -/
theorem Emission.registers (h : Emission p b log t artifact) :
    artifact.stats.registers = t.highest := by
  rw [h.stats]
  rfl

/-- A byte that does not change is that of the image. -/
theorem Emission.same (h : Emission p b log t artifact)
    (hfits : artifact.image.size + Machine.scratchSize ≤ addressSpace) {final : Machine} {a : Nat}
    (hsize : final.memory.size = (Machine.ofImage artifact.image).memory.size)
    (hsame : final.contents a = (h.linked hfits).image a) :
    final.memory[a]? = (Machine.ofImage artifact.image).memory[a]? := by
  rcases Nat.lt_or_ge a final.memory.size with hinside | houtside
  · rw [getElem?_of_contents hinside hsame]
    exact (getElem?_of_contents (hsize ▸ hinside) (contents_ofImage artifact.image a)).symm
  · rw [Array.getElem?_eq_none houtside, Array.getElem?_eq_none (hsize ▸ houtside)]

/-- A run of tidy code starts between segments. -/
theorem Emission.cut (h : Emission p b log t artifact) (htidy : Tidy false t)
    (hfits : artifact.image.size + Machine.scratchSize ≤ addressSpace) :
    Cut t.highest t.pieces.toList false (Machine.ofImage artifact.image).pc := by
  have hcut : Cut t.highest t.pieces.toList false (t.entry.getD codeStart) := by
    cases hentry : t.entry with
    | some a => exact htidy.entry a hentry
    | none =>
        refine ⟨[], _, rfl, fun a ha => ?_, rfl, htidy.laid⟩
        exact absurd ha List.not_mem_nil
  have hle := hcut.le
  have hsize := h.size_image
  rw [State.halted, toList_emit, size_append] at hsize
  have hscratch : 0 < Machine.scratchSize := by decide
  rw [h.pc_entry, Nat.mod_eq_of_lt (by omega)]
  exact hcut

/-- Bytes that are laid down as data are in the image. -/
theorem Emission.getElem?_bytes (h : Emission p b log t artifact)
    (hfits : artifact.image.size + Machine.scratchSize ≤ addressSpace) {a : Nat} {data : List UInt8}
    (hpiece : PieceAt codeStart t.pieces.toList a (.bytes data)) {i : Nat} (hi : i < data.length) :
    artifact.image.bytes[a + i]? = some data[i] := by
  obtain ⟨-, hinside⟩ := hpiece.fits
  obtain ⟨before, behind, hpieces, rfl⟩ := hpiece
  have hlonger : (h.linked hfits).pieces = before ++ .bytes data ::
      (behind ++ [.instruction 0 0 (.known t.position)]) := by
    show t.halted.pieces.toList = _
    rw [State.halted, toList_emit, hpieces]
    simp
  have hbyte : artifact.image.bytes.getD (codeStart + size before + i) 0 = data[i] :=
    (h.linked hfits).code before _ _ hlonger i hi
  have hsize := h.size_image
  rw [State.halted, toList_emit, size_append] at hsize
  simp only [Piece.size] at hinside
  rw [Image.size] at hsize
  rw [Array.getD_eq_getD_getElem?, Array.getElem?_eq_getElem (by omega), Option.getD_some] at hbyte
  rw [Array.getElem?_eq_getElem (by omega), hbyte]

section Stopped

variable {final : Machine} {fault : Option Fault} {limit : Nat}

/-- The pointer of a load is in memory. -/
theorem word?_of_number (hsize : immediate + addressSize ≤ final.memory.size) :
    Bytes.word? final.memory immediate = some (final.contents.number immediate addressSize) := by
  have hnumber := Machine.number_contents final.memory addressSize immediate
  exact (if_pos hsize).trans (congrArg some hnumber)

/-- Where a run of tidy code stands, nothing is damaged. -/
theorem Emission.undamaged (h : Emission p b log t artifact) (htidy : Tidy false t)
    (hfits : artifact.image.size + Machine.scratchSize ≤ addressSpace)
    (hsegmented : (h.linked hfits).Segmented t.highest t.pieces.toList)
    (hstands : (h.linked hfits).Stands t.highest t.pieces.toList limit final fault) :
    Undamaged t artifact limit final fault := by
  have hsize : final.memory.size = (Machine.ofImage artifact.image).memory.size := by
    rw [hstands.size, size_ofImage, h.size_image]
    rfl
  -- everything but registers in use and patched fields is as it was
  have hkept : ∀ a, ¬ (Slot t.highest a ∨ Patches codeStart t.pieces.toList a) →
      final.memory[a]? = (Machine.ofImage artifact.image).memory[a]? := fun a ha =>
    h.same hfits hsize (hstands.frame a fun hchanges => ha (changes_cases hsegmented hchanges))
  have hcode : codeStart + Assembly.size t.pieces.toList ≤ artifact.image.size := by
    rw [h.size_image, State.halted, toList_emit, size_append]
    omega
  have himage : ∀ a < artifact.image.size,
      (Machine.ofImage artifact.image).memory[a]? = artifact.image.bytes[a]? := by
    intro a ha
    rw [memory_ofImage, Array.getElem?_append_left ha]
  have hlow := Linked.addTable_lt_codeStart
  have hoff : ∀ a < codeStart, a < immediate ∨ addTable ≤ a →
      final.memory[a]? = artifact.image.bytes[a]? := by
    intro a hless ha
    rw [hkept a, himage a (by omega)]
    intro hchanged
    rcases hchanged with hslot | hpatches
    · have hbelow := hslot.lt_addTable htidy.highest
      have habove := hslot.1
      omega
    · have hinside := hpatches.fits.1
      omega
  have hdata : ∀ a piece, PieceAt codeStart t.pieces.toList a piece →
      piece.isInstruction = false → ∀ i < piece.size,
      final.memory[a + i]? = artifact.image.bytes[a + i]? := by
    intro a piece hpiece hnone i hi
    obtain ⟨hstart, hend⟩ := hpiece.fits
    rw [hkept (a + i), himage (a + i) (by omega)]
    intro hchanged
    rcases hchanged with hslot | hpatches
    · have hbelow := hslot.lt_addTable htidy.highest
      omega
    · exact not_patches_data hpiece hnone hi hpatches
  have hbytes : ∀ a data, PieceAt codeStart t.pieces.toList a (.bytes data) →
      ∀ i (hi : i < data.length), final.memory[a + i]? = some data[i] := fun a data hpiece i hi =>
    (hdata a _ hpiece rfl i hi).trans (h.getElem?_bytes hfits hpiece hi)
  refine ⟨hstands.piece, fun hhalted => ?_, fun hrunning => ?_, hsize, fun a hchanged => ?_,
    fun a ha => hoff a ?_ (Or.inl ha), fun a hfrom hto => hoff a hto (Or.inr hfrom), hdata,
    fun value a hbyte => hbytes a [value] (htidy.bytes _ hbyte) 0 Nat.one_pos,
    fun text a hstring => hbytes a _ (htidy.strings _ hstring)⟩
  · rcases hstands.ending with ⟨-, hrunning⟩ | ⟨hnone, -, hpc⟩ | ⟨-, hrunning, -⟩
    · cases hhalted.symm.trans hrunning
    · refine ⟨hnone, ?_⟩
      rw [hpc, h.layout, htidy.position]
    · cases hhalted.symm.trans hrunning
  · rcases hstands.ending with ⟨hlimit, -⟩ | ⟨-, hhalted, -⟩ | ⟨hfault, -, hreach⟩
    · exact Or.inl hlimit
    · cases hhalted.symm.trans hrunning
    · obtain ⟨before, behind, start, hpieces, hstart, hpc, -, houtside⟩ := hreach
      refine Or.inr ⟨before, behind, start, _, hpieces, hstart, hpc, word?_of_number ?_, ?_, hfault⟩
      · rw [hsize, size_ofImage]
        exact Nat.le_add_left_of_le (by decide)
      · rwa [hstands.size]
  · rw [h.registers]
    exact Classical.byContradiction fun hneither => hchanged (hkept a hneither)
  · exact Nat.lt_trans ha (by decide)

end Stopped

/-- A run of the image of a tidy emission. -/
theorem Emission.run_undamaged (hsettles : Settles p) (h : Emission p .none log t artifact)
    (htidy : Tidy false t) (hfits : artifact.image.size + Machine.scratchSize ≤ addressSpace)
    (limit : Nat) : Undamaged t artifact limit ((Machine.ofImage artifact.image).run limit).1
      ((Machine.ofImage artifact.image).run limit).2 := by
  have hsegmented := h.segmented hsettles htidy hfits
  have hmemory : (Machine.ofImage artifact.image).memory.size = (h.linked hfits).size := by
    rw [size_ofImage, h.size_image]
    rfl
  have hframe : (h.linked hfits).Frame t.highest (Machine.ofImage artifact.image).contents :=
    fun a _ => contents_ofImage artifact.image a
  have hleg := hsegmented.leg (h.cut htidy hfits) hframe
  exact h.undamaged htidy hfits hsegmented (hsegmented.stands limit (limit - 0) hmemory rfl hleg)

end Emission

end Emit

namespace Session

open Emit

/-- Running the image of an accepted program without jumps to computed addresses, raw words and stores
does not damage the image, however long the run is. -/
theorem runs_undamaged (source : FileSource) (dirs : List Path)
    (mains : List (Syntax.Program × Path)) (tree : Syntax.Program) (file : Path) (b : Bindings)
    {p : Program} {artifact : Artifact}
    (hresolve : ((afterMains source dirs mains).resolve tree file).1 = .ok p)
    (hgenerate : (p.generate b).1 = .ok artifact) (htame : p.tame = true)
    (hfits : artifact.image.size + Machine.scratchSize ≤ addressSpace) :
    ∃ log t, Emission p b log t artifact ∧ ∀ limit,
      Undamaged t artifact limit ((Machine.ofImage artifact.image).run limit).1
        ((Machine.ofImage artifact.image).run limit).2 := by
  have hsettles : Settles p := Resolves.settles ⟨mains, tree, file, [], rfl, hresolve⟩
  obtain ⟨log, t, h⟩ := emission_of_generate hgenerate
  obtain ⟨log', u, h', ht⟩ := h.fresh hsettles
  refine ⟨log, t, h, fun limit => ?_⟩
  have hrun := h'.run_undamaged hsettles (h'.tidy htame) hfits limit
  rw [ht]
  exact ⟨hrun.instruction, hrun.halt, hrun.fault, hrun.size, hrun.changed, hrun.header, hrun.tables,
    hrun.data, hrun.bytes, hrun.strings⟩

/-- A loop over the bytes of a string, with a branch and a load in it. -/
theorem runs_undamaged_loop :
    let use : Syntax.Expr := .variable "x" .zero
    let load : Syntax.Stmt := .mk [] (.evaluate (.unary .deref (.int 5 .zero) .zero)) .zero
    let body : Syntax.Stmt := .mk [] (.branch (.unary .not (.int 1 .zero) .zero) load none) .zero
    let tree : Syntax.Program :=
      [.mk [] (.define ⟨"x", .zero⟩ (.str "ab" .zero)) .zero,
        .mk [] (.loop (.unary .deref use .zero) body false) .zero]
    ∃ p artifact, ((afterMains (MemoryFiles.source []) [] []).resolve tree ⟨"main"⟩).1 = .ok p ∧
      (p.generate .none).1 = .ok artifact ∧ p.tame = true ∧
      artifact.image.size + Machine.scratchSize ≤ addressSpace ∧
      ∃ log t, Emission p .none log t artifact ∧ ∀ limit,
        Undamaged t artifact limit ((Machine.ofImage artifact.image).run limit).1
          ((Machine.ofImage artifact.image).run limit).2 := by
  intro use load body tree
  have hchecked : runnable Program.tame ((afterMains (MemoryFiles.source []) [] []).resolve tree
      ⟨"main"⟩).1 .none = true := by decide +kernel
  obtain ⟨p, artifact, hresolve, hgenerate, htame, hfits⟩ := exists_of_runnable hchecked
  exact ⟨p, artifact, hresolve, hgenerate, htame, hfits, runs_undamaged (MemoryFiles.source []) [] []
    tree ⟨"main"⟩ .none hresolve hgenerate htame hfits⟩

end Session

end ByteJump
