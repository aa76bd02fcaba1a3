import ByteJump.Proofs.Emit.Segments

set_option autoImplicit false

/-!
# Runs of segments

Code that is a row of segments is run in legs, each from a place between segments to another one, to
the halt or to a load that reaches outside memory.  On the way every instruction is one that was laid
down, and memory is the image but for registers in use and fields that instructions write to.

The only successor that is written to is the one of the jump a choice ends with.  When it is reached
its bytes are those of an address from the table, because the immediate register was tested: the number
in its low byte is the place of an entry.

A `Leg` is a run with an end: the constructors are the ways in which code may be left, and one for
an instruction that goes on.  It is built backwards, from what comes behind a segment, so each
lemma on a segment takes the legs of the place behind as a hypothesis and gives a leg of the place
in front.  Along the way `Frame` is kept: it says which bytes may differ from the image.  The
induction over a row of segments is `leg_laid`; a jump between segments ends a leg, which is why
loops do not get in its way.  Runs of any length are then a matter of one leg after the other, in
`Segmented.stands`.
-/

namespace ByteJump

open Assembly Memory

namespace Assembly

/-! ## Straight code

Copies into an instruction, and the choice of a byte from a table, are rows of instructions that
go on one behind the other.  Such rows are run by one induction on the row. -/

/-- Instructions laid down from an address on, each of which goes on at the one behind it. -/
def Straight : Nat → List Piece → Prop
  | _, [] => True
  | start, piece :: rest =>
      (∃ source destination,
        piece = .instruction source destination (.known (start + instructionSize))) ∧
        Straight (start + instructionSize) rest

section Straight

variable {start : Nat} {row more : List Piece}

/-- The second row starts where the first one has its last successor. -/
theorem Straight.append (h : Straight start row)
    (h' : Straight (start + row.length * instructionSize) more) : Straight start (row ++ more) := by
  induction row generalizing start with
  | nil =>
      rw [List.length_nil, Nat.zero_mul, Nat.add_zero] at h'
      exact h'
  | cons piece rest ih =>
      refine ⟨h.1, ih h.2 ?_⟩
      rw [List.length_cons, Nat.add_mul, Nat.one_mul] at h'
      rwa [Nat.add_assoc, Nat.add_comm instructionSize]

/-- Copies into an instruction go on one behind the other. -/
theorem straight_patchPieces (target : Nat) (fields : List (Nat × Nat)) :
    ∀ start, Straight start (patchPieces target start fields) := by
  induction fields with
  | nil => exact fun _ => trivial
  | cons f fields ih => exact fun start => ⟨⟨_, _, rfl⟩, ih _⟩

/-- One copy for each field. -/
theorem length_patchPieces (target : Nat) (fields : List (Nat × Nat)) :
    ∀ start, (patchPieces target start fields).length = fields.length := by
  induction fields with
  | nil => exact fun _ => rfl
  | cons f fields ih => exact fun start => congrArg Nat.succ (ih _)

/-- The instruction comes on top of the copies. -/
theorem length_patchedPieces (start : Nat) (fields : List (Nat × Nat)) (source destination : Nat) :
    (patchedPieces start fields source destination).length = fields.length + 1 := by
  rw [patchedPieces, List.length_append, length_patchPieces]
  rfl

/-- The copies go on to the instruction they lead to. -/
theorem straight_patchedPieces (start : Nat) (fields : List (Nat × Nat))
    (source destination : Nat) : Straight start (patchedPieces start fields source destination) := by
  refine (straight_patchPieces _ _ _).append ?_
  rw [length_patchPieces]
  exact ⟨⟨_, _, rfl⟩, trivial⟩

theorem straight_selectPieces (table jump count : Nat) :
    ∀ start i, Straight start (selectPieces table jump start count i) := by
  induction count with
  | zero => exact fun _ _ => trivial
  | succ count ih =>
      intro start i
      rw [selectPieces, selectPiece, List.append_assoc]
      refine (straight_patchedPieces _ _ _ _).append ?_
      rw [length_patchedPieces]
      exact ⟨⟨_, _, rfl⟩, ih _ _⟩

theorem length_selectPieces (table jump count : Nat) :
    ∀ start i, (selectPieces table jump start count i).length = count * 3 := by
  induction count with
  | zero => exact fun _ _ => rfl
  | succ count ih =>
      intro start i
      rw [selectPieces, selectPiece, List.length_append, List.length_append, length_patchedPieces, ih,
        List.length_singleton, List.length_singleton]
      omega

end Straight

/-! ## Blocks

A block is closed off from the code around it: nothing in front of it and nothing behind it writes
into it.  So whether a byte of it can change is a question about the block alone. -/

/-- Pieces in a row of pieces to which nothing outside them writes. -/
def Block (pieces : List Piece) (start : Nat) (more : List Piece) : Prop :=
  ∃ before behind, pieces = before ++ more ++ behind ∧ start = codeStart + size before ∧
    Closed codeStart before ∧ Closed (start + size more) behind

section Block

variable {start a : Nat} {pieces more more' : List Piece} {piece : Piece}

/-- What the block itself does not write to is written to by no instruction. -/
theorem Block.kept (h : Block pieces start more) (hlow : start ≤ a) (hhigh : a < start + size more)
    (hmore : a ∉ destinations more) : a ∉ destinations pieces := by
  have hcode := Linked.addTable_lt_codeStart
  obtain ⟨before, behind, rfl, rfl, hbefore, hbehind⟩ := h
  intro hmem
  rw [destinations_append, destinations_append] at hmem
  rcases List.mem_append.mp hmem with hmem | hmem
  · rcases List.mem_append.mp hmem with hmem | hmem
    · rcases hbefore a hmem with h | h <;> omega
    · exact hmore hmem
  · rcases hbehind a hmem with h | h <;> omega

/-- A block lies in the code. -/
theorem Block.fits (h : Block pieces start more) :
    codeStart ≤ start ∧ start + size more ≤ codeStart + size pieces := by
  obtain ⟨before, behind, rfl, rfl, -, -⟩ := h
  rw [size_append, size_append]
  omega

/-- A piece of a block is a piece of the code. -/
theorem Block.pieceAt (h : Block pieces start more) (ha : PieceAt start more a piece) :
    PieceAt codeStart pieces a piece := by
  obtain ⟨before, behind, rfl, rfl, -, -⟩ := h
  exact ha.right.left

/-- The first part of a block, if the second one writes to itself only. -/
theorem Block.left (h : Block pieces start (more ++ more'))
    (hclosed : Closed (start + size more) more') :
    Block pieces start more := by
  obtain ⟨before, behind, rfl, hstart, hbefore, hbehind⟩ := h
  refine ⟨before, more' ++ behind, by simp, hstart, hbefore, hclosed.append ?_⟩
  rwa [Nat.add_assoc, ← size_append]

/-- The second part of a block, if the first one writes to itself only. -/
theorem Block.right (h : Block pieces start (more ++ more')) (hclosed : Closed start more) :
    Block pieces (start + size more) more' := by
  obtain ⟨before, behind, rfl, rfl, hbefore, hbehind⟩ := h
  refine ⟨before ++ more, behind, by simp, by rw [size_append, Nat.add_assoc], hbefore.append hclosed,
    ?_⟩
  rwa [Nat.add_assoc, ← size_append]

/-- A block is one of a longer row, if what is behind writes to itself only. -/
theorem Block.longer (h : Block pieces start more) (hclosed : Closed (codeStart + size pieces) more') :
    Block (pieces ++ more') start more := by
  obtain ⟨before, behind, rfl, rfl, hbefore, hbehind⟩ := h
  refine ⟨before, behind ++ more', by simp, rfl, hbefore, hbehind.append ?_⟩
  rwa [size_append, size_append, ← Nat.add_assoc, ← Nat.add_assoc] at hclosed

end Block

end Assembly

namespace Linked

open Emit

variable {L : Linked} {n : Nat} {code : List Piece} {c : Contents} {a pc : Nat}

/-! ## What may change

The frame is the invariant of all runs: outside of the registers in use and of the fields that
instructions write to, memory is still the image. -/

/-- Memory is the image but for registers in use and what instructions write to in code. -/
def Frame (L : Linked) (n : Nat) (c : Contents) : Prop :=
  ∀ a, ¬ (Slot n a ∨ codeStart ≤ a ∧ a ∈ destinations L.pieces) → c a = L.image a

/-- Instructions and tables that are not written to are still what was laid down. -/
theorem Frame.intact (h : L.Frame n c) (hcount : n ≤ registerCount) : L.Intact c := by
  intro a hlow hhigh hkept
  refine h a fun hchanges => ?_
  rcases hchanges with hslot | ⟨-, hmem⟩
  · exact Nat.not_lt.mpr hlow (hslot.lt_addTable hcount)
  · exact hkept hmem

/-- A byte may be written if it is one of those that may differ. -/
theorem Frame.set {v : UInt8} (h : L.Frame n c)
    (ha : Slot n a ∨ codeStart ≤ a ∧ a ∈ destinations L.pieces) : L.Frame n (c.set a v) := by
  intro b hb
  have hne : b ≠ a := by
    rintro rfl
    exact hb ha
  rw [Contents.set_of_ne hne]
  exact h b hb

/-! ## Rows of segments in memory

The code of a program is one row of segments with the halt behind it.  Runs go from one cut
between segments to another. -/

/-- The linked code is a row of segments with a halt behind it.  Points are places between segments,
and a jump does not go to itself. -/
structure Segmented (L : Linked) (n : Nat) (code : List Piece) : Prop where
  pieces : L.pieces = code ++ [.instruction 0 0 (.known (codeStart + Assembly.size code))]
  count : n ≤ registerCount
  laid : Laid n codeStart false code false
  points : ∀ piece ∈ code, ∀ role serial,
    piece.word? = some (.address (.point role serial) none) → Cut n code false (L.points serial)
  moves : ∀ a role serial,
    PieceAt codeStart code a (.instruction 0 0 (.address (.point role serial) none)) →
    L.points serial ≠ a

/-- A load reaches outside memory. -/
def OutOfReach (L : Linked) (code : List Piece) (c : Contents) (pc : Nat) : Prop :=
  ∃ before behind start, code = before ++ loadPieces start ++ behind ∧
    start = codeStart + Assembly.size before ∧ pc = start + addressSize * instructionSize ∧
    c.number (pc + sourceField) addressSize = c.number immediate addressSize ∧
    L.size ≤ c.number immediate addressSize

/-- A run from one place goes on until it comes to a place between segments, halts or reaches outside
memory. -/
inductive Leg (L : Linked) (n : Nat) (code : List Piece) : Contents → Nat → Prop
  | halts {c : Contents} (frame : L.Frame n c) : Leg L n code c (codeStart + Assembly.size code)
  | faults {c : Contents} {pc : Nat} (frame : L.Frame n c) (h : L.OutOfReach code c pc) :
      Leg L n code c pc
  | goes {c c' : Contents} {pc pc' source destination : Nat} {next : Word} (frame : L.Frame n c)
      (piece : PieceAt codeStart L.pieces pc (.instruction source destination next))
      (first : Step L.size c pc c' pc') (rest : Leg L n code c' pc') : Leg L n code c pc
  | arrives {c c' : Contents} {pc pc' source destination : Nat} {next : Word} (frame : L.Frame n c)
      (piece : PieceAt codeStart L.pieces pc (.instruction source destination next))
      (first : Step L.size c pc c' pc') (frame' : L.Frame n c') (cut : Cut n code false pc') :
      Leg L n code c pc

/-! ## Legs

These lemmas run single instructions and straight rows.  The hypotheses say that successors, and
mostly destinations, are not written to; a source may be, as that is what patching is for. -/

section Legs

variable {source destination start : Nat} {next : Word} {before behind row more : List Piece}

/-- An instruction no other one writes to. -/
theorem Leg.instruction (hcount : n ≤ registerCount) (hframe : L.Frame n c)
    (hpieces : L.pieces = before ++ .instruction source destination next :: behind)
    (hpc : pc = codeStart + Assembly.size before)
    (hkept : ∀ i < instructionSize, pc + i ∉ destinations L.pieces) (hs : source < L.size)
    (hd : Slot n destination ∨ source = 0 ∧ destination = 0)
    (hmoves : L.value next % addressSpace ≠ pc)
    (hrest : ∀ c', c' = c.set destination (c source) → L.Frame n c' →
      Leg L n code c' (L.value next % addressSpace) ∨
        Cut n code false (L.value next % addressSpace)) : Leg L n code c pc := by
  have hcode := addTable_lt_codeStart
  have hstop := L.codeStart_le_stop
  have hsize : L.stop ≤ L.size := Nat.le_add_right _ _
  have hd' : destination < L.size := by
    rcases hd with hslot | ⟨-, rfl⟩
    · have hlow := hslot.lt_addTable hcount
      omega
    · omega
  have hstep := step_of_kept hpieces hpc (hframe.intact hcount) hkept hs hd' hmoves
  have hframe' : L.Frame n (c.set destination (c source)) := by
    rcases hd with hslot | ⟨rfl, rfl⟩
    · exact hframe.set (Or.inl hslot)
    · -- the byte is copied to where it is
      rwa [Contents.set_same]
  have hpiece : PieceAt codeStart L.pieces pc (.instruction source destination next) :=
    ⟨before, behind, hpieces, hpc⟩
  rcases hrest _ rfl hframe' with hleg | hcut
  · exact .goes hframe hpiece hstep hleg
  · exact .arrives hframe hpiece hstep hframe' hcut

/-- A step of an instruction of which at most the source is written to. -/
theorem Frame.step {c' : Contents} {pc' : Nat} (hcount : n ≤ registerCount) (hframe : L.Frame n c)
    (hpieces : L.pieces = before ++ .instruction source destination next :: behind)
    (hpc : pc = codeStart + Assembly.size before)
    (hkept : ∀ i, destinationField ≤ i → i < instructionSize → pc + i ∉ destinations L.pieces)
    (hd : Slot n destination ∨ codeStart ≤ destination ∧ destination < L.stop)
    (hstep : Step L.size c pc c' pc') : L.Frame n c' ∧ pc' = L.value next % addressSpace := by
  have hcode := addTable_lt_codeStart
  have hstop := L.codeStart_le_stop
  have hspace := L.size_le
  have hsize : L.stop ≤ L.size := Nat.le_add_right _ _
  have hintact := hframe.intact hcount
  obtain ⟨-, himage, himage'⟩ := image_instruction hpieces hpc
  have hfield : ∀ field, destinationField ≤ field → field + addressSize ≤ instructionSize →
      ∀ i < addressSize, pc + field + i ∉ destinations L.pieces := by
    intro field hlow hhigh i hi
    rw [Nat.add_assoc]
    exact hkept _ (by omega) (by omega)
  have hto := field_of_kept destinationField hpieces hpc hintact (by decide)
    (hfield _ (by decide) (by decide)) himage
  have hnext := field_of_kept nextField hpieces hpc hintact (by decide)
    (hfield _ (by decide) (by decide)) himage'
  have hsmall : destination < addressSpace := by
    rcases hd with hslot | ⟨-, hhigh⟩
    · have hlow := hslot.lt_addTable hcount
      omega
    · omega
  rw [Nat.mod_eq_of_lt hsmall] at hto
  refine ⟨?_, hstep.next.symm.trans hnext⟩
  rw [hstep.result, hto]
  refine hframe.set (hd.imp_right fun hrange => ⟨hrange.1, ?_⟩)
  rw [hpieces]
  exact mem_destinations (List.mem_append_right _ List.mem_cons_self)

/-- Straight code, only the sources of which are written to. -/
theorem Leg.straight (hcount : n ≤ registerCount) : ∀ {row : List Piece} {start : Nat}
    {before : List Piece} {c c' : Contents} {pc' : Nat}, L.pieces = before ++ row ++ behind →
    start = codeStart + Assembly.size before → Straight start row →
    (∀ a, start ≤ a → a < start + Assembly.size row →
      destinationField ≤ (a - start) % instructionSize → a ∉ destinations L.pieces) →
    (∀ a ∈ destinations row, Slot n a ∨ codeStart ≤ a ∧ a < L.stop) → L.Frame n c →
    Steps L.size row.length c start c' pc' →
    (L.Frame n c' → pc' = start + Assembly.size row → Leg L n code c' pc') →
    Leg L n code c start := by
  intro row
  induction row with
  | nil =>
      intro start before c c' pc' hpieces hstart hstraight hkept hto hframe hsteps hrest
      cases hsteps
      exact hrest hframe rfl
  | cons piece rest ih =>
      intro start before c c' pc' hpieces hstart hstraight hkept hto hframe hsteps hrest
      obtain ⟨⟨source, destination, rfl⟩, hstraight'⟩ := hstraight
      rw [List.append_assoc, List.cons_append] at hpieces
      have hinstruction : instructionSize = 24 := rfl
      have hsize := size_cons (.instruction source destination (.known (start + instructionSize))) rest
      simp only [Piece.size] at hsize
      cases hsteps with
      | more first hsteps =>
        have hown : ∀ i, destinationField ≤ i → i < instructionSize →
            start + i ∉ destinations L.pieces := by
          intro i hlow hhigh
          refine hkept _ (by omega) (by omega) ?_
          rwa [Nat.add_sub_cancel_left, Nat.mod_eq_of_lt hhigh]
        obtain ⟨hframe', hnext⟩ := hframe.step hcount hpieces hstart hown
          (hto _ (mem_destinations List.mem_cons_self)) first
        rw [value_known (stop_eq hpieces hstart)] at hnext
        subst hnext
        have hpieces' : L.pieces = (before ++ [.instruction source destination
            (.known (start + instructionSize))]) ++ rest ++ behind := by
          rw [hpieces]
          simp
        have hstart' : start + instructionSize = codeStart + Assembly.size (before ++
            [.instruction source destination (.known (start + instructionSize))]) := by
          rw [size_append, ← Nat.add_assoc, ← hstart]
          rfl
        have hkept' : ∀ a, start + instructionSize ≤ a →
            a < start + instructionSize + Assembly.size rest →
            destinationField ≤ (a - (start + instructionSize)) % instructionSize →
            a ∉ destinations L.pieces := by
          intro a hlow hhigh hoffset
          refine hkept a (by omega) (by omega) ?_
          rw [hinstruction] at hoffset hlow ⊢
          omega
        refine .goes hframe ⟨before, _, hpieces, hstart⟩ first
          (ih hpieces' hstart' hstraight' hkept' (fun a ha => hto a ?_) hframe' hsteps
            fun hend hpc => hrest hend ?_)
        · exact (destinations_append [_] rest) ▸ List.mem_append_right _ ha
        · rw [hpc, hsize, Nat.add_assoc]

/-- What copies into the source of an instruction and the instruction write to. -/
theorem patched_cases {fields : List (Nat × Nat)} (hfields : ∀ f ∈ fields, f.2 < destinationField)
    (h : a ∈ destinations (patchedPieces start fields source destination)) :
    (∃ f ∈ fields, a = start + fields.length * instructionSize + f.2 ∧
      (a - start) % instructionSize < destinationField) ∨ a = destination := by
  rw [destinations_patchedPieces] at h
  rcases List.mem_append.mp h with hfield | hlast
  · obtain ⟨f, hf, rfl⟩ := List.mem_map.mp hfield
    have hsmall := hfields f hf
    have hinside : destinationField < instructionSize := by decide
    refine Or.inl ⟨f, hf, rfl, ?_⟩
    rw [Nat.add_assoc, Nat.add_sub_cancel_left, Nat.mul_add_mod_self_right,
      Nat.mod_eq_of_lt (Nat.lt_trans hsmall hinside)]
    exact hsmall
  · exact Or.inr (List.mem_singleton.mp hlast)

/-- A byte of an instruction and of copies into it that no copy goes to. -/
theorem kept_of_patched {fields : List (Nat × Nat)}
    (hblock : Block L.pieces start (patchedPieces start fields source destination))
    (hfields : ∀ f ∈ fields, f.2 < destinationField) (hdestination : destination < addTable)
    (hlow : start ≤ a) (hhigh : a < start + (fields.length + 1) * instructionSize)
    (hne : (∀ f ∈ fields, a ≠ start + fields.length * instructionSize + f.2) ∨
      destinationField ≤ (a - start) % instructionSize) : a ∉ destinations L.pieces := by
  have hcode := addTable_lt_codeStart
  have hstart := hblock.fits.1
  refine hblock.kept hlow ?_ fun hmem => ?_
  · rwa [size_patchedPieces, ← Nat.succ_mul]
  · rcases patched_cases hfields hmem with ⟨f, hf, heq, hless⟩ | rfl
    · rcases hne with hne | hoffset
      · exact hne f hf heq
      · omega
    · omega

/-- Copies into the source of an instruction, and the instruction. -/
theorem Leg.patched {fields : List (Nat × Nat)} {src : Nat} (hcount : n ≤ registerCount)
    (hblock : Block L.pieces start (patchedPieces start fields source destination))
    (hfields : ∀ f ∈ fields, f.1 < addTable ∧ f.2 < destinationField)
    (hnodup : (fields.map Prod.snd).Nodup) (hdestination : Slot n destination)
    (hframe : L.Frame n c)
    (hsource : (patchedField c fields sourceField source).number 0 addressSize = src)
    (hsrc : src < L.size)
    (hrest : ∀ c', L.Intact c' → L.Frame n (c'.set destination (c' src)) →
      Leg L n code (c'.set destination (c' src))
        (start + Assembly.size (patchedPieces start fields source destination))) :
    Leg L n code c start := by
  have hword : destinationField < nextField := by decide
  have hlow := hdestination.lt_addTable hcount
  have hsize := size_patchedPieces start fields source destination
  rw [← Nat.succ_mul] at hsize
  obtain ⟨hstart, hstop⟩ : _ ∧ _ ≤ L.stop := hblock.fits
  have hoffsets : ∀ f ∈ fields, f.2 < destinationField := fun f hf => (hfields f hf).2
  have hdestination' : (patchedField c fields destinationField destination).number 0 addressSize =
      destination := by
    rw [number_of_none]
    · exact Nat.mod_eq_of_lt (Nat.lt_trans hlow (by decide))
    · intro f hf i _
      have hsmall := hoffsets f hf
      omega
  obtain ⟨before, behind, hpieces, hpc, -, -⟩ := id hblock
  obtain ⟨c', hclimbs, hintact, -, -⟩ := run_patched hpieces hpc
    (fun a hfrom hto hne => kept_of_patched hblock hoffsets hlow hfrom hto (Or.inl hne))
    (fun f hf => ⟨(hfields f hf).1, Nat.lt_trans (hfields f hf).2 hword⟩) hnodup
    (hframe.intact hcount) (fun _ _ => rfl) hsource hdestination' hsrc
    (isData_of_lt hlow).lt_size
  rw [← length_patchedPieces start fields source destination] at hclimbs
  refine Leg.straight hcount hpieces hpc (straight_patchedPieces _ _ _ _)
    (fun a hfrom hto hoffset => ?_) (fun a ha => ?_) hframe hclimbs.steps fun hend hat => ?_
  · exact kept_of_patched hblock hoffsets hlow hfrom (by rwa [hsize] at hto) (Or.inr hoffset)
  · rcases patched_cases hoffsets ha with ⟨f, hf, rfl, -⟩ | rfl
    · have hsmall := hoffsets f hf
      have hinside : destinationField < instructionSize := by decide
      rw [Nat.succ_mul] at hsize
      exact Or.inr ⟨by omega, by omega⟩
    · exact Or.inl hdestination
  · rw [hat]
    exact hrest c' hintact hend

/-- The copies alone: they are done also if the instruction behind them has a fault. -/
theorem Leg.copies {fields : List (Nat × Nat)} {target : Nat} (hcount : n ≤ registerCount)
    (hblock : Block L.pieces start (patchedPieces start fields source destination))
    (htarget : target = start + fields.length * instructionSize)
    (hfields : ∀ f ∈ fields, f.1 < addTable ∧ f.2 < destinationField)
    (hnodup : (fields.map Prod.snd).Nodup) (hdestination : Slot n destination)
    (hframe : L.Frame n c)
    (hrest : ∀ c', L.Frame n c' → (∀ f ∈ fields, c' (target + f.2) = c f.1) →
      (∀ a < codeStart, c' a = c a) → Leg L n code c' target) : Leg L n code c start := by
  have hlow := hdestination.lt_addTable hcount
  have hsize := size_patchedPieces start fields source destination
  have hsmall : destinationField < instructionSize := by decide
  obtain ⟨hstart, hstop⟩ : _ ∧ _ ≤ L.stop := hblock.fits
  have hoffsets : ∀ f ∈ fields, f.2 < destinationField := fun f hf => (hfields f hf).2
  have hcode := addTable_lt_codeStart
  have hinside : ∀ f ∈ fields, addTable ≤ target + f.2 ∧ target + f.2 < L.stop := by
    intro f hf
    have hless := hoffsets f hf
    exact ⟨by omega, by omega⟩
  have hend : start + (fields.length + 1) * instructionSize = target + instructionSize := by
    rw [Nat.succ_mul, htarget, Nat.add_assoc]
  obtain ⟨before, behind, hpieces, hpc, -, -⟩ := id hblock
  rw [patchedPieces, ← htarget, ← List.append_assoc, List.append_assoc] at hpieces
  have hkept : ∀ a, start ≤ a → a < target → a ∉ destinations L.pieces := by
    intro a hfrom hto
    refine kept_of_patched hblock hoffsets hlow hfrom (by omega) (Or.inl fun f _ => ?_)
    omega
  obtain ⟨c', hclimbs, -, -, hpatched, hother⟩ := run_patches (d := c) hpieces hpc
    (fun a hfrom hto => hkept a hfrom (by rwa [htarget]))
    (fun f hf => ⟨(hfields f hf).1, hinside f hf⟩) hnodup (hframe.intact hcount) fun _ _ => rfl
  have hcopies : Assembly.size (patchPieces target start fields) = fields.length * instructionSize :=
    size_patchPieces _ _ _
  rw [← length_patchPieces target fields start] at hclimbs
  refine Leg.straight hcount hpieces hpc (straight_patchPieces _ _ _)
    (fun a hfrom hto _ => hkept a hfrom (by rwa [hcopies, ← htarget] at hto)) (fun a ha => ?_) hframe
    hclimbs.steps fun hend hat => ?_
  · rw [destinations_patchPieces] at ha
    obtain ⟨f, hf, rfl⟩ := List.mem_map.mp ha
    exact Or.inr ⟨by omega, (hinside f hf).2⟩
  · rw [hat, hcopies, ← htarget]
    refine hrest c' hend hpatched fun a ha => hother a fun f _ => ?_
    omega

/-- The instruction a block starts with, if nothing in the block writes to it. -/
theorem Leg.first (hcount : n ≤ registerCount)
    (hblock : Block L.pieces start (.instruction source destination next :: more))
    (hfree : ∀ a ∈ destinations more, a < codeStart) (hframe : L.Frame n c) (hs : source < L.size)
    (hd : Slot n destination ∨ source = 0 ∧ destination = 0)
    (hmoves : L.value next % addressSpace ≠ start)
    (hrest : ∀ c', c' = c.set destination (c source) → L.Frame n c' →
      Leg L n code c' (L.value next % addressSpace) ∨
        Cut n code false (L.value next % addressSpace)) : Leg L n code c start := by
  have hcode := addTable_lt_codeStart
  have hd' : destination < codeStart := by
    rcases hd with hslot | ⟨-, rfl⟩
    · have hlow := hslot.lt_addTable hcount
      omega
    · omega
  obtain ⟨hstart, hfits⟩ := hblock.fits
  rw [size_cons] at hfits
  have hkept : ∀ i < instructionSize, start + i ∉ destinations L.pieces := by
    intro i hi
    refine hblock.kept (Nat.le_add_right _ _) ?_ fun hmem => ?_
    · rw [size_cons]
      simp only [Piece.size]
      omega
    · rcases List.mem_cons.mp (show start + i ∈ destination :: destinations more from hmem) with
        heq | hmore
      · omega
      · have hless := hfree _ hmore
        omega
  obtain ⟨before, behind, hpieces, hpc, -, -⟩ := hblock
  rw [List.append_assoc, List.cons_append] at hpieces
  exact Leg.instruction hcount hframe hpieces hpc hkept hs hd hmoves hrest

end Legs

/-! ## Legs of segments

One lemma for each kind of segment.  A segment that starts with a test leaves `Tested` behind, and
a choice needs it: the flag of the rows of segments keeps track of where it holds. -/

/-- The low byte of the immediate register is the place of an address in a table of two. -/
def Tested (c : Contents) : Prop :=
  (c immediate).toNat = 0 ∨ (c immediate).toNat = addressSize

section Segments

variable {start : Nat} {tested tested' : Bool} {more : List Piece}

/-- A block of the code is one of the linked code, as only the halt stands behind it. -/
theorem Segmented.block (h : L.Segmented n code) (hblock : Block code start more) :
    Block L.pieces start more := by
  rw [h.pieces]
  exact hblock.longer (closed_instruction (by decide))

/-- The code ends with the halt. -/
theorem Segmented.stop (h : L.Segmented n code) :
    L.stop = codeStart + Assembly.size code + instructionSize := by
  unfold Linked.stop
  rw [h.pieces, size_append, Nat.add_assoc]
  rfl

/-- The linked code writes to no table in front of it. -/
theorem Segmented.closed (h : L.Segmented n code) : Closed codeStart L.pieces := by
  rw [h.pieces]
  exact (h.laid.closed h.count).append (closed_instruction (by decide))

/-- A byte of a table. -/
theorem Segmented.tables (h : L.Segmented n code) (hlow : addTable ≤ a) (hhigh : a < codeStart) :
    a ∉ destinations L.pieces := by
  intro hmem
  rcases h.closed a hmem with h | h <;> omega

/-- A place between segments is an address. -/
theorem Segmented.cut_lt (h : L.Segmented n code) (ha : Cut n code false a) : a < addressSpace := by
  have hle := ha.le
  have hstop := h.stop
  have hspace := L.size_le
  have hsize : L.stop ≤ L.size := Nat.le_add_right _ _
  have hinstruction : 0 < instructionSize := by decide
  omega

/-- A block of code ends in front of the halt. -/
theorem Segmented.fits (h : L.Segmented n code) (hblock : Block code start more) :
    codeStart ≤ start ∧ start + Assembly.size more ≤ L.stop ∧ L.stop < L.size := by
  obtain ⟨hlow, hhigh⟩ := hblock.fits
  have hstop := h.stop
  have hscratch : Machine.scratchSize = 0x10000 := rfl
  refine ⟨hlow, by omega, ?_⟩
  unfold Linked.size
  omega

/-- A copy to a register in use, or to the immediate, keeps the frame. -/
theorem leg_copy {source destination : Nat} (h : L.Segmented n code)
    (hblock : Block code start [.instruction source destination (.known (start + instructionSize))])
    (hsource : source < start) (hdestination : Slot n destination)
    (htested : tested = true → destination ≠ immediate) (hframe : L.Frame n c)
    (hready : tested = true → Tested c)
    (hrest : ∀ c', L.Frame n c' → (tested = true → Tested c') →
      Leg L n code c' (start + instructionSize)) : Leg L n code c start := by
  obtain ⟨hlow, hhigh, hsize⟩ := h.fits hblock
  have hvalue : L.value (.known (start + instructionSize)) % addressSpace = start + instructionSize :=
    value_known hhigh
  refine Leg.first h.count (h.block hblock) (by simp [destinations]) hframe (by omega)
    (Or.inl hdestination) ?_ fun c' hc' hframe' => Or.inl ?_
  · rw [hvalue]
    simp [instructionSize]
  · rw [hvalue]
    refine hrest c' hframe' fun htrue => ?_
    unfold Tested
    rw [hc', Contents.set_of_ne (htested htrue).symm]
    exact hready htrue

/-- A jump over data is an instruction whose successor is behind the data. -/
theorem leg_over {data : List Piece} (h : L.Segmented n code)
    (hblock : Block L.pieces start
      (.instruction 0 0 (.known (start + instructionSize + Assembly.size data)) :: data))
    (hdata : destinations data = []) (hframe : L.Frame n c)
    (hrest : Leg L n code c (start + instructionSize + Assembly.size data)) :
    Leg L n code c start := by
  have hfits := hblock.fits
  rw [size_cons] at hfits
  have hvalue : L.value (.known (start + instructionSize + Assembly.size data)) % addressSpace =
      start + instructionSize + Assembly.size data := by
    refine value_known ?_
    rw [Nat.add_assoc]
    exact hfits.2
  have hzero : 0 < L.size := (isData_of_lt (L := L) (a := 0) (by decide)).lt_size
  refine Leg.first h.count hblock (by simp [hdata]) hframe hzero (Or.inr ⟨rfl, rfl⟩) ?_
    fun c' hc' _ => Or.inl ?_
  · rw [hvalue]
    simp only [instructionSize]
    omega
  · rw [hvalue, hc', Contents.set_same]
    exact hrest

/-- The byte is looked up in a table of bytes, so the result is known to be one of two. -/
theorem leg_notLookup {x destination : Nat} (h : L.Segmented n code)
    (hblock : Block code start (patchedPieces start [(x, sourceField)] notTable destination))
    (hx : x < addTable) (hdestination : Slot n destination)
    (htested : tested = true → destination = immediate) (hframe : L.Frame n c)
    (hrest : ∀ c', L.Frame n c' → (tested = true → Tested c') → Leg L n code c' (start +
      Assembly.size (patchedPieces start [(x, sourceField)] notTable destination))) :
    Leg L n code c start := by
  obtain ⟨hlow, hhigh, hsize⟩ := h.fits hblock
  have hbyte := (c x).toNat_lt
  have htable : notTable % addressSpace / 256 * 256 = notTable := by decide
  have hsource := number_lowByte (d := c) x notTable
  rw [htable] at hsource
  have hrange : addTable ≤ (c x).toNat + notTable ∧ (c x).toNat + notTable < codeStart := by
    simp only [addTable, notTable, codeStart]
    omega
  refine Leg.patched h.count (h.block hblock) (by simp [hx, sourceField, destinationField]) (by simp)
    hdestination hframe hsource (by omega) fun c' hintact hframe' => hrest _ hframe' fun htrue => ?_
  have hlook : c' ((c x).toNat + notTable) =
      if (c x).toNat = 0 then UInt8.ofNat Constant.truth else 0 := by
    rw [hintact _ hrange.1 (by omega) (h.tables hrange.1 hrange.2), Nat.add_comm, L.nots _ hbyte]
  unfold Tested
  rw [htested htrue, Contents.set_self, hlook]
  split
  · exact Or.inr rfl
  · exact Or.inl rfl

theorem leg_sumLookup {x y destination : Nat} (h : L.Segmented n code)
    (hblock : Block code start
      (patchedPieces start [(x, sourceField + 1), (y, sourceField)] addTable destination))
    (hx : x < addTable) (hy : y < addTable) (hdestination : Slot n destination)
    (hframe : L.Frame n c) (hrest : ∀ c', L.Frame n c' → Leg L n code c' (start +
      Assembly.size (patchedPieces start [(x, sourceField + 1), (y, sourceField)] addTable
        destination))) : Leg L n code c start := by
  obtain ⟨hlow, hhigh, hsize⟩ := h.fits hblock
  have hbyteX := (c x).toNat_lt
  have hbyteY := (c y).toNat_lt
  have hrange : addTable + (c x).toNat * 256 + (c y).toNat < codeStart := by
    simp only [addTable, codeStart]
    omega
  exact Leg.patched h.count (h.block hblock) (by simp [hx, hy, sourceField, destinationField])
    (by simp [sourceField]) hdestination hframe (number_lowBytes x y) (by omega)
    fun c' _ hframe' => hrest _ hframe'

/-- A load goes on, or reaches outside memory by the pointer it was given. -/
theorem leg_load (h : L.Segmented n code) (hblock : Block code start (loadPieces start))
    (hframe : L.Frame n c)
    (hrest : ∀ c', L.Frame n c' → Leg L n code c' (start + Assembly.size (loadPieces start))) :
    Leg L n code c start := by
  have hfields : ∀ f ∈ wholeField immediate sourceField, f.1 < addTable ∧ f.2 < destinationField := by
    decide
  have hnodup : ((wholeField immediate sourceField).map Prod.snd).Nodup := by decide
  have himmediate : Slot n immediate := slot_immediate (i := 0) h.count (by decide)
  have hblock' := h.block hblock
  rcases Nat.lt_or_ge (c.number immediate addressSize) L.size with hinside | houtside
  · exact Leg.patched h.count hblock' hfields hnodup himmediate hframe (number_wholeField _ _ _) hinside
      fun c' _ hframe' => hrest _ hframe'
  refine Leg.copies h.count hblock' rfl hfields hnodup himmediate hframe
    fun c' hframe' hpatched hlow => ?_
  obtain ⟨before, behind, hcode, hstart, -, -⟩ := hblock
  have hsame : c'.number immediate addressSize = c.number immediate addressSize := by
    refine Contents.number_congr fun i hi => hlow _ ?_
    exact Nat.lt_trans (Nat.add_lt_add_left hi _) (by decide)
  refine .faults hframe' ⟨before, behind, start, hcode, hstart, rfl, ?_, hsame ▸ houtside⟩
  rw [hsame]
  refine Contents.number_congr fun i hi => ?_
  rw [Nat.add_assoc]
  exact hpatched (immediate + i, sourceField + i) (List.mem_map.mpr ⟨i, List.mem_range.mpr hi, rfl⟩)

/-- A jump to a point ends the leg: a point is a place between segments. -/
theorem leg_jump {role : String} {serial : Nat} (h : L.Segmented n code)
    (hblock : Block code start [.instruction 0 0 (.address (.point role serial) none)])
    (hframe : L.Frame n c) : Leg L n code c start := by
  have hpiece := hblock.pieceAt pieceAt_head
  have hcut := h.points _ hpiece.mem role serial rfl
  have hvalue : L.value (.address (.point role serial) none) % addressSpace = L.points serial := by
    rw [L.point_value]
    exact Nat.mod_eq_of_lt (h.cut_lt hcut)
  have hzero : 0 < L.size := (isData_of_lt (L := L) (a := 0) (by decide)).lt_size
  refine Leg.first h.count (h.block hblock) (by simp [destinations]) hframe hzero
    (Or.inr ⟨rfl, rfl⟩) ?_ fun c' _ _ => Or.inr ?_
  · rw [hvalue]
    exact h.moves start role serial hpiece
  · rwa [hvalue]

/-- The place that a table has for the number in the immediate register is copied into the jump
behind, which goes there. -/
theorem leg_choice {table place target : Nat} (h : L.Segmented n code)
    (hblock : Block code start (choicePieces table start)) (hframe : L.Frame n c)
    (hplace : (c immediate).toNat = place) (hcarries : table % 256 + place + addressSize ≤ 256)
    (htable : codeStart ≤ table)
    (hentry : ∀ i < addressSize, table + place + i < L.stop ∧
      table + place + i ∉ destinations L.pieces ∧ L.image (table + place + i) = wordContents target i)
    (hcut : Cut n code false target) : Leg L n code c start := by
  obtain ⟨hlow, hhigh, -⟩ := h.fits hblock
  have hinside := hblock.fits.2
  have hsize := size_choicePieces table start
  have hinstruction : instructionSize = 24 := rfl
  have hblock' := h.block hblock
  have hpiece : PieceAt start (choicePieces table start)
      (start + addressSize * (3 * instructionSize)) (.instruction 0 0 (.known 0)) := by
    refine ⟨_, [], rfl, ?_⟩
    rw [size_selectPieces]
  -- the jump is inside a segment
  have hmoves : target ≠ start + addressSize * (3 * instructionSize) := by
    rintro rfl
    rcases hcut.instruction with hend | ⟨source, destination, next, hat, hnext⟩
    · omega
    · rcases hat.apart (hblock.pieceAt hpiece) with ⟨-, hsame⟩ | hleft | hright
      · cases hsame
        exact hnext rfl
      · simp only [Piece.size] at hleft
        omega
      · simp only [Piece.size] at hright
        omega
  generalize hjump : start + addressSize * (3 * instructionSize) = jump at *
  have hfits : jump + instructionSize ≤ L.stop := by omega
  have hchosen : L.Chosen table jump place (wordContents target) :=
    ⟨hcarries, htable, hentry, fun a => h.tables, by omega, hfits⟩
  -- the code writes to low bytes of its own sources, and to the successor at the end
  have hkept : ∀ a, start ≤ a → a < jump + nextField →
      (∀ j < addressSize, a ≠ start + j * (3 * instructionSize) + instructionSize ∧
        a ≠ start + j * (3 * instructionSize) + 2 * instructionSize) →
      a ∉ destinations L.pieces := by
    intro a hfrom hto hne
    have hword : nextField < instructionSize := by decide
    refine hblock'.kept hfrom (by omega) fun hmem => ?_
    rcases destinations_choicePieces hmem with hzero | ⟨j, hj, hown⟩ | hbyte
    · have hcode : 0 < codeStart := by decide
      omega
    · have hne' := hne j hj
      omega
    · omega
  obtain ⟨before, behind, hpieces, hpc, -, -⟩ := id hblock'
  obtain ⟨c', htrail, hstep, -, -, -⟩ := run_choosing hchosen hplace hpieces hpc hjump.symm hkept
    (hframe.intact h.count) (fun _ _ => rfl) (h.cut_lt hcut) hmoves
  have hclimbs := htrail.climbs
  have hselect := size_selectPieces table jump addressSize start 0
  rw [choicePieces, hjump, ← List.append_assoc, List.append_assoc] at hpieces
  rw [length_selectAllCopies, ← length_selectPieces table jump addressSize start 0] at hclimbs
  refine Leg.straight h.count hpieces hpc (straight_selectPieces _ _ _ _ _)
    (fun a hfrom hto hoffset => hkept a hfrom (by omega) fun j _ => ?_) (fun a ha => ?_) hframe
    hclimbs.steps fun hend hat => .arrives hend (hblock'.pieceAt hpiece) hstep hend hcut
  · simp only [destinationField, hinstruction] at hoffset ⊢
    omega
  · rcases destinations_selectPieces ha with ⟨j, hj, hown⟩ | ⟨j, hj, rfl⟩
    · have hpart : j * (3 * instructionSize) ≤ 7 * (3 * instructionSize) :=
        Nat.mul_le_mul_right _ (Nat.le_of_lt_succ hj)
      simp only [addressSize, hinstruction] at hjump hpart hown
      exact Or.inr ⟨by omega, by omega⟩
    · simp only [addressSize, nextField, hinstruction] at hj hfits ⊢
      exact Or.inr ⟨by omega, by omega⟩

/-- The bytes of the entry a table has for the number in the immediate register. -/
theorem entry_of_table {role role' : String} {serial serial' table : Nat}
    (htable : Block L.pieces table
      [.word (.address (.point role serial) none), .word (.address (.point role' serial') none)])
    (htested : Tested c) : ∃ place target, (c immediate).toNat = place ∧ place ≤ addressSize ∧
      (target = L.points serial ∨ target = L.points serial') ∧
      ∀ i < addressSize, table + place + i < L.stop ∧
        table + place + i ∉ destinations L.pieces ∧
        L.image (table + place + i) = wordContents target i := by
  obtain ⟨before, behind, hpieces, hstart, -, -⟩ := id htable
  obtain ⟨hlow, hhigh⟩ : _ ∧ _ ≤ L.stop := htable.fits
  have hsize : Assembly.size [Piece.word (.address (.point role serial) none),
      .word (.address (.point role' serial') none)] = addressSize + addressSize := rfl
  have hkept : ∀ place ≤ addressSize, ∀ i < addressSize, table + place + i < L.stop ∧
      table + place + i ∉ destinations L.pieces := by
    intro place hplace i hi
    rw [hsize] at hhigh
    refine ⟨by omega, htable.kept (by omega) (by rw [hsize]; omega) List.not_mem_nil⟩
  rcases htested with hzero | hsecond
  · refine ⟨0, L.points serial, hzero, Nat.zero_le _, Or.inl rfl, fun i hi => ?_⟩
    obtain ⟨hinside, hfree⟩ := hkept 0 (Nat.zero_le _) i hi
    refine ⟨hinside, hfree, ?_⟩
    rw [(image_table hpieces hstart hi).1, L.point_value]
  · refine ⟨addressSize, L.points serial', hsecond, Nat.le_refl _, Or.inr rfl, fun i hi => ?_⟩
    obtain ⟨hinside, hfree⟩ := hkept addressSize (Nat.le_refl _) i hi
    refine ⟨hinside, hfree, ?_⟩
    rw [(image_table hpieces hstart hi).2, L.point_value]

/-- A jump over aligned data goes to the end of the data. -/
theorem alignedPieces_eq {data : List Piece} (hfits : start + instructionSize + 16 ≤ addressSpace) :
    alignedPieces start 16 data =
      .instruction 0 0 (.known (start + instructionSize + Assembly.size
        (.bytes (List.replicate (alignUp (start + instructionSize) 16 -
          (start + instructionSize)) 0) :: data))) ::
        .bytes (List.replicate (alignUp (start + instructionSize) 16 - (start + instructionSize)) 0) ::
          data := by
  obtain ⟨hpast, -⟩ := alignUp_spec (show 1 < 16 by decide) hfits
  rw [alignedPieces, size_cons, Piece.size, List.length_replicate, ← Nat.add_assoc,
    Nat.add_sub_cancel' hpast]

/-- A table is jumped over, and one of its addresses is chosen. -/
theorem leg_choose {role role' : String} {serial serial' : Nat} (h : L.Segmented n code)
    (hblock : Block code start (choosePieces (.point role serial) (.point role' serial') start))
    (hframe : L.Frame n c) (htested : Tested c) : Leg L n code c start := by
  obtain ⟨hlow, hhigh, -⟩ := h.fits hblock
  have hroom : L.stop + 0x10000 ≤ addressSpace := L.size_le
  unfold choosePieces at hblock hhigh
  generalize hwords : [Piece.word (.address (.point role serial) none),
    .word (.address (.point role' serial') none)] = words at hblock hhigh
  have hdata : destinations words = [] := hwords ▸ rfl
  rw [size_append, size_choicePieces] at hhigh
  have hfits : start + instructionSize + 16 ≤ addressSpace := by omega
  obtain ⟨hpast, haligned⟩ := alignUp_spec (show 1 < 16 by decide) hfits
  have hpieces : alignedPieces start 16 words = _ := alignedPieces_eq hfits
  generalize hpadding : List.replicate (alignUp (start + instructionSize) 16 -
    (start + instructionSize)) (0 : UInt8) = padding at hpieces
  have hlength : start + instructionSize + padding.length = alignUp (start + instructionSize) 16 := by
    rw [← hpadding, List.length_replicate, Nat.add_sub_cancel' hpast]
  have hnone : destinations (.bytes padding :: words) = [] := hdata
  have hjump := hblock.left (closed_choicePieces _ _)
  have hchoice := hblock.right (hpieces ▸ closed_jump hnone)
  have hend : start + Assembly.size (alignedPieces start 16 words) =
      start + instructionSize + Assembly.size (.bytes padding :: words) := by
    rw [hpieces, size_cons, Nat.add_assoc]
    rfl
  rw [hpieces] at hjump
  refine leg_over h (h.block hjump) hnone hframe ?_
  -- the table stands behind the jump over it
  have htable : Block L.pieces (alignUp (start + instructionSize) 16) words := by
    have hsplit : Block L.pieces start ([.instruction 0 0 (.known (start + instructionSize +
        Assembly.size (.bytes padding :: words))), .bytes padding] ++ words) := h.block hjump
    have hbehind := hsplit.right (closed_jump rfl)
    have hsize : ∀ next, Assembly.size [.instruction 0 0 next, .bytes padding] =
        instructionSize + padding.length := fun next => by simp [Assembly.size, Piece.size]
    rwa [hsize, ← Nat.add_assoc, hlength] at hbehind
  subst hwords
  obtain ⟨place, target, hplace, hsmall, htarget, hentry⟩ := entry_of_table htable htested
  rw [← hend]
  refine leg_choice h hchoice hframe hplace ?_ (by omega) hentry ?_
  · simp only [addressSize] at hsmall ⊢
    omega
  · have hword : ∀ role serial, .word (.address (.point role serial) none) ∈ code →
        Cut n code false (L.points serial) := fun role serial hmem => h.points _ hmem role serial rfl
    obtain ⟨before, behind, hcode, -⟩ := hjump
    rcases htarget with rfl | rfl
    · exact hword role serial (by rw [hcode]; simp)
    · exact hword role' serial' (by rw [hcode]; simp)

end Segments

/-! ## Legs of rows of segments

The induction is on how the row is laid.  A place between segments is in front of one of them, and
behind it the legs are given by induction. -/

/-- One case for each kind of segment. -/
theorem leg_segment (h : L.Segmented n code) {start : Nat} {tested tested' : Bool}
    {more : List Piece} (hmore : Segment n start tested more tested') (hblock : Block code start more)
    (hframe : L.Frame n c) (htested : tested = true → Tested c)
    (hrest : ∀ c', L.Frame n c' → (tested' = true → Tested c') →
      Leg L n code c' (start + Assembly.size more)) : Leg L n code c start := by
  cases hmore with
  | copy hsource hdestination hkeeps =>
      exact leg_copy h hblock hsource hdestination hkeeps hframe htested hrest
  | skipped hdata =>
      have hdata' := destinations_of_data hdata
      refine leg_over h (h.block hblock) hdata' hframe ?_
      rw [Nat.add_assoc]
      exact hrest c hframe htested
  | notLookup hx hdestination hinto =>
      exact leg_notLookup h hblock hx hdestination hinto hframe hrest
  | sumLookup hx hy hdestination =>
      exact leg_sumLookup h hblock hx hy hdestination hframe fun c' hframe' =>
        hrest c' hframe' fun hfalse => by cases hfalse
  | load =>
      exact leg_load h hblock hframe fun c' hframe' => hrest c' hframe' fun hfalse => by cases hfalse
  | jump => exact leg_jump h hblock hframe
  | choose => exact leg_choose h hblock hframe (htested rfl)

/-- From any place between segments there is a leg, and also between segments that know of a test. -/
theorem leg_laid (h : L.Segmented n code) {start : Nat} {tested tested' : Bool}
    {behind : List Piece} (hlaid : Laid n start tested behind tested') : ∀ {before : List Piece}
    {c : Contents}, code = before ++ behind → Closed codeStart before →
    start = codeStart + Assembly.size before → L.Frame n c → (tested = true → Tested c) →
    Leg L n code c start := by
  induction hlaid with
  | nil =>
      intro before c hcode hclosed hstart hframe htested
      rw [List.append_nil] at hcode
      rw [hstart, ← hcode]
      exact .halts hframe
  | forget rest ih =>
      intro before c hcode hclosed hstart hframe htested
      exact ih hcode hclosed hstart hframe fun hfalse => by cases hfalse
  | @cons start _ _ _ more behind first rest ih =>
      intro before c hcode hclosed hstart hframe htested
      have hbehind := rest.closed h.count
      refine leg_segment h first ⟨before, _, ?_, hstart, hclosed, hbehind⟩ hframe htested
        fun c' hframe' htested' => ?_
      · rw [hcode, List.append_assoc]
      · have hcode' : code = (before ++ more) ++ behind := by rw [hcode, List.append_assoc]
        refine ih hcode' (hclosed.append ?_) ?_ hframe' htested'
        · rw [← hstart]
          exact first.laid.closed h.count
        · rw [size_append, ← Nat.add_assoc, ← hstart]

/-- The leg from a place between segments of the whole code. -/
theorem Segmented.leg (h : L.Segmented n code) (ha : Cut n code false a) (hframe : L.Frame n c) :
    Leg L n code c a := by
  obtain ⟨before, behind, hcode, hclosed, hstart, hlaid⟩ := ha
  exact leg_laid h hlaid hcode hclosed hstart hframe fun hfalse => by cases hfalse

/-! ## Legs of the machine

A leg is unfolded step by step.  At each of its places an instruction stands, so the machine does
there what the instruction says, and where the leg ends the machine is at the halt, at a place
between segments, or at a load that fails. -/

/-- The frame holds at the start of a leg. -/
theorem Leg.frame (h : Leg L n code c pc) : L.Frame n c := by
  cases h with
  | halts frame => exact frame
  | faults frame _ => exact frame
  | goes frame _ _ _ => exact frame
  | arrives frame _ _ _ _ => exact frame

/-- On a leg there is always an instruction. -/
theorem Leg.piece (h : L.Segmented n code) (hleg : Leg L n code c pc) :
    ∃ source destination next,
      PieceAt codeStart L.pieces pc (.instruction source destination next) := by
  cases hleg with
  | halts _ => exact ⟨_, _, _, code, [], h.pieces, rfl⟩
  | faults _ hreach =>
      obtain ⟨before, behind, start, rfl, hstart, hpc, -, -⟩ := hreach
      rw [h.pieces, List.append_assoc, List.append_assoc, loadPieces, patchedPieces,
        List.append_assoc, ← List.append_assoc]
      refine ⟨_, _, _, _, _, rfl, ?_⟩
      rw [hpc, hstart, size_append, size_patchPieces, ← Nat.add_assoc]
      rfl
  | goes _ piece _ _ => exact ⟨_, _, _, piece⟩
  | arrives _ piece _ _ _ => exact ⟨_, _, _, piece⟩

/-- An instruction on a leg lies in memory. -/
theorem Leg.fits (h : L.Segmented n code) (hleg : Leg L n code c pc) :
    pc + instructionSize ≤ L.size := by
  obtain ⟨source, destination, next, hpiece⟩ := hleg.piece h
  exact Nat.le_trans hpiece.fits.2 (Nat.le_add_right _ _)

/-- Nothing writes to the halt. -/
theorem Segmented.halt_kept (h : L.Segmented n code) (i : Nat) :
    codeStart + Assembly.size code + i ∉ destinations L.pieces := by
  have hcode := addTable_lt_codeStart
  intro hmem
  rw [h.pieces, destinations_append] at hmem
  rcases List.mem_append.mp hmem with hmem | hmem
  · rcases h.laid.closed h.count _ hmem with hlow | hin <;> omega
  · obtain hnone : codeStart + Assembly.size code + i = 0 := List.mem_singleton.mp hmem
    omega

/-- Where a run stands that was stopped, and why it was. -/
structure Stands (L : Linked) (n : Nat) (code : List Piece) (limit : Nat) (final : Machine)
    (fault : Option Fault) : Prop where
  size : final.memory.size = L.size
  frame : L.Frame n final.contents
  piece : ∃ source destination next,
    PieceAt codeStart L.pieces final.pc (.instruction source destination next)
  ending : fault = some (.stepLimit limit) ∧ final.halted = false ∨
    fault = none ∧ final.halted = true ∧ final.pc = codeStart + Assembly.size code ∨
    fault = some (.outOfBounds final.pc (final.contents.number immediate addressSize)) ∧
      final.halted = false ∧ L.OutOfReach code final.contents final.pc

/-- A run along legs halts behind the code, is stopped by its limit or reaches outside memory. -/
theorem Segmented.stands (h : L.Segmented n code) (limit fuel : Nat) : ∀ {m : Machine},
    m.memory.size = L.size → m.halted = false → Leg L n code m.contents m.pc →
    Stands L n code limit (m.runFor limit fuel).1 (m.runFor limit fuel).2 := by
  have hspace := L.size_le
  induction fuel with
  | zero =>
      intro m hmemory hhalted hleg
      refine ⟨hmemory, hleg.frame, hleg.piece h, Or.inl ⟨?_, hhalted⟩⟩
      rw [Machine.runFor, hhalted]
      rfl
  | succ fuel ih =>
      intro m hmemory hhalted hleg
      have hfits := hleg.fits h
      have hpiece := hleg.piece h
      -- a step of the contents is one of the machine
      have hgoes : ∀ {c' pc'}, Step L.size m.contents m.pc c' pc' → Leg L n code c' pc' →
          Stands L n code limit (m.runFor limit (fuel + 1)).1 (m.runFor limit (fuel + 1)).2 := by
        intro c' pc' hstep hrest
        rw [← hmemory] at hstep
        obtain ⟨copy, hfetch, hcontents, hpc, hgoesOn⟩ :=
          Machine.fetch_of_step (hmemory ▸ hspace) hstep
        rw [Machine.runFor, if_neg (by simp [hhalted]), hfetch]
        refine ih ((Machine.size_memory_perform m copy).trans hmemory) hgoesOn ?_
        rwa [hcontents, hpc]
      generalize hcontents : m.contents = c at hleg hgoes
      generalize hpc : m.pc = pc at hleg hgoes hpiece hfits
      cases hleg with
      | halts frame =>
          obtain ⟨final, hrun, hend, hat, hmemory', hcontents'⟩ :=
            runFor_of_halt limit fuel h.pieces rfl (fun i _ => h.halt_kept i)
              hmemory (hcontents ▸ frame.intact h.count) hpc hhalted
          rw [hrun]
          exact ⟨hmemory'.trans hmemory, hcontents' ▸ hcontents ▸ frame, hat ▸ hpiece,
            Or.inr (Or.inl ⟨rfl, hend, hat⟩)⟩
      | faults frame hreach =>
          obtain ⟨-, -, -, -, -, -, hpointer, houtside⟩ := id hreach
          subst hcontents hpc
          have hfetch := Machine.fetch_outside (m := m) (hmemory ▸ hspace) (hmemory ▸ hfits)
            (by rwa [hmemory, hpointer])
          rw [Machine.runFor, if_neg (by simp [hhalted]), hfetch, hpointer]
          exact ⟨hmemory, frame, hpiece, Or.inr (Or.inr ⟨rfl, hhalted, hreach⟩)⟩
      | goes _ _ first rest => exact hgoes first rest
      | arrives _ _ first frame' cut => exact hgoes first (h.leg cut frame')

end Linked

end ByteJump
