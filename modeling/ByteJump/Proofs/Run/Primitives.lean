import ByteJump.Proofs.Run.Exec

set_option autoImplicit false

/-!
# What primitives do

The primitives of emitting add known pieces to a state.  When these run they change data in a way
that is a function of the data before: a copy sets one byte, a constant nothing, and a patched
instruction the byte that its fields name by then.

An effect is a function on data: `Effect L s t F` says that the code from `s` to `t` changes the
data `d` to `F d`.  Effects compose, and this is how the primitives that emit several instructions
are proved: a range is some copies, a number is some bytes, a patched instruction is some copies
and a step.  The instructions read from constants in the code as well as from data, so `Readable`
tells what may be read, and the value read from a constant is the one it was placed with, as
nothing writes there.
-/

namespace ByteJump

namespace Emit

open Assembly Memory

variable {L : Linked} {α β : Type}

/-! ## Pieces added to good states -/

/-- Closed pieces are added to a good state. -/
theorem Good.emit {s : State} {more : List Piece} (h : Good s) (hclosed : Closed s.position more) :
    Good (s.emit more) := by
  have hposition := h.position
  refine ⟨?_, ?_, fun value a ha => ?_, h.mark, h.points⟩
  · rw [toList_emit, size_append, ← Nat.add_assoc, ← hposition]
    rfl
  · rw [toList_emit]
    rw [hposition] at hclosed
    exact h.closed.append hclosed
  · obtain ⟨hless, hkept, before, behind, hpieces, haddress⟩ := h.bytes value a ha
    have hlow : addTable ≤ a := by
      have hcode := Linked.addTable_lt_codeStart
      omega
    rw [toList_emit]
    refine ⟨Nat.lt_of_lt_of_le hless (Nat.le_add_right _ _), fun hmem => ?_, before,
      behind ++ more, by simp [hpieces], haddress⟩
    rw [destinations_append] at hmem
    rcases List.mem_append.mp hmem with hmem | hmem
    · exact hkept hmem
    · rcases hclosed a hmem with hmem | hmem <;> omega

/-- Code that writes to itself and to data only. -/
theorem Grows.emit {s : State} {more : List Piece} (hclosed : Closed s.position more) :
    Grows s (s.emit more) :=
  ⟨⟨more, toList_emit s more, rfl, hclosed⟩, fun _ _ h => h, fun _ _ h => .inl h, fun _ _ h => h⟩

/-- Where it is known what emitting does, it is known what has been emitted. -/
theorem Exec.of_run {x : Emitter α} {s : State} {more : List Piece} {a : α}
    {Q : α → State → Prop} (hrun : x s = .ok a (s.emit more)) (hclosed : Closed s.position more)
    (h : Good s → Q a (s.emit more)) : Exec x s Q := by
  refine ⟨fun hgood b t hb => ?_⟩
  rw [hrun] at hb
  cases hb
  exact ⟨hgood.emit hclosed, .emit hclosed, h hgood⟩

/-! ## Effects -/

/-- What was emitted between two states changes the data by a function. -/
structure Effect (L : Linked) (s t : State) (F : Contents → Contents) : Prop where
  kept : Kept s t
  mark : t.mark = s.mark
  does : ∀ d, Does L s t d fun d' => d' = F d

theorem Effect.refl (s : State) : Effect L s s id :=
  ⟨.refl s, rfl, fun _ => .nothing rfl rfl⟩

/-- The effects are composed in the order of the code. -/
theorem Effect.trans {s t u : State} {F G : Contents → Contents} (h : Effect L s t F)
    (hgrows : Grows t u) (h' : Effect L t u G) : Effect L s u (fun d => G (F d)) := by
  refine ⟨h.kept.trans h'.kept, h'.mark.trans h.mark, fun d => (h.does d).trans hgrows ?_⟩
  rintro _ rfl
  exact h'.does (F d)

theorem closed_instruction {start source destination : Nat} {next : Word}
    (h : destination < addTable) : Closed start [.instruction source destination next] := by
  intro a ha
  obtain rfl : a = destination := by simpa [destinations] using ha
  exact Or.inl h

/-- The byte does not change while code runs, or it is data. -/
def Readable (L : Linked) (s : State) (a : Nat) : Prop := Steady s a ∨ L.IsData a

/-- What may be read stays readable while code grows. -/
theorem Readable.mono {s t : State} {a : Nat} (hgood : Good s) (h : Grows s t)
    (ha : Readable L s a) : Readable L t a := ha.imp (Steady.mono hgood h) id

/-- What is read is data, or a byte of code that stays as it is. -/
theorem Readable.cases {t : State} {a : Nat} (ha : Readable L t a) (h : Leads L t)
    (hgood : Good t) :
    L.IsData a ∨ addTable ≤ a ∧ a < L.stop ∧ a ∉ destinations L.pieces :=
  ha.elim (h.steady hgood) Or.inl

theorem Readable.lt_size {t : State} {a : Nat} (ha : Readable L t a) (h : Leads L t)
    (hgood : Good t) : a < L.size := by
  have hstop : L.stop ≤ L.size := Nat.le_add_right _ _
  rcases ha.cases h hgood with hdata | ⟨-, hlt, -⟩
  · exact hdata.lt_size
  · omega

/-- A single instruction was emitted whose destination is data. -/
theorem effect_instruction {s : State} {source destination next : Nat}
    (hgood : Good s) (hsource : Readable L s source) (hdestination : destination < addTable)
    {more : List Piece} (hmore : destinations more = [])
    (hnext : next = s.position + instructionSize + size more) :
    Effect L s (s.emit (.instruction source destination (.known next) :: more))
      fun d => d.set destination (L.read d source) := by
  have hclosed : Closed s.position (.instruction source destination (.known next) :: more) := by
    intro a ha
    obtain rfl : a = destination := by
      simpa [destinations, show List.filterMap _ more = [] from hmore] using ha
    exact Or.inl hdestination
  refine ⟨⟨rfl, rfl, rfl, rfl, rfl⟩, rfl, fun d => ⟨fun hleads c hintact hshows => ?_⟩⟩
  have hposition : (s.emit (.instruction source destination (.known next) :: more)).position =
      next := by
    show s.position + size _ = _
    simp only [size, List.map_cons, List.sum_cons, Piece.size] at hnext ⊢
    omega
  have hstop := hleads.position_le (hgood.emit hclosed)
  rw [hposition] at hstop
  obtain ⟨behind, hbehind, -⟩ := hleads.code
  rw [toList_emit, List.append_assoc, List.cons_append] at hbehind
  have hkept : ∀ i < instructionSize, s.position + i ∉ destinations L.pieces := by
    intro i hi
    refine hleads.kept hgood (toList_emit _ _) rfl (by omega) (by omega) fun hmem => ?_
    have hcode := Linked.addTable_lt_codeStart
    have hstart := hgood.position
    rcases hclosed _ hmem with h | h
    · omega
    · have heq : s.position + i = destination := by
        simpa [destinations, show List.filterMap _ more = [] from hmore] using hmem
      omega
  have hvalue := L.value_known hstop
  have hreadable := hsource.mono hgood (.emit hclosed)
  have hdata : L.IsData destination := Linked.isData_of_lt hdestination
  have hrises : s.position < next := by
    simp only [instructionSize] at hnext
    omega
  have hstep := Linked.step_of_kept hbehind hgood.position hintact hkept
    (hreadable.lt_size hleads (hgood.emit hclosed)) hdata.lt_size (by rw [hvalue]; exact hrises.ne')
  rw [hvalue, Linked.eq_read hintact hshows (hreadable.cases hleads (hgood.emit hclosed))] at hstep
  rw [hposition]
  exact ⟨1, _, _, .one hstep hrises, hintact.set (Or.inl hdata), hshows.set_data, rfl⟩

/-! ## Copies and constants

A constant is placed once and used again for the same value.  It stands behind a jump over it, so
running past it has no effect. -/

variable (L)

/-- A copy sets one byte. -/
theorem copy_exec {s : State} {source destination : Nat} (hdestination : destination < addTable) :
    Exec (copy source destination) s fun _ t => Kept s t ∧ t.mark = s.mark ∧
      (Readable L s source → Effect L s t fun d => d.set destination (L.read d source)) := by
  refine .of_run (run_copy source destination s) (closed_instruction hdestination) fun hgood => ?_
  refine ⟨⟨rfl, rfl, rfl, rfl, rfl⟩, rfl, fun hsource => ?_⟩
  exact effect_instruction hgood hsource hdestination rfl (by simp [size])

section Jump

variable {L} {s : State} {next : Nat} {more : List Piece}

theorem closed_jump {start : Nat} (hmore : destinations more = []) :
    Closed start (.instruction 0 0 (.known next) :: more) := by
  intro a ha
  obtain rfl : a = 0 := by
    simpa [destinations, show List.filterMap _ more = [] from hmore] using ha
  exact Or.inl (by decide)

/-- A byte copied to itself. -/
theorem set_read_self {d : Contents} {a : Nat} (h : L.IsData a) : d.set a (L.read d a) = d := by
  rw [Linked.read_data h, Contents.set_same]

/-- A jump over pieces with nothing that writes. -/
theorem effect_jump (hgood : Good s) (hmore : destinations more = [])
    (hnext : Leads L (s.emit (.instruction 0 0 (.known next) :: more)) →
      next = s.position + instructionSize + size more) :
    Effect L s (s.emit (.instruction 0 0 (.known next) :: more)) id := by
  refine ⟨⟨rfl, rfl, rfl, rfl, rfl⟩, rfl, fun d => ⟨fun hleads => ?_⟩⟩
  have hlow : 0 < addTable := by decide
  have hzero : L.IsData 0 := Linked.isData_of_lt hlow
  have heffect := effect_instruction hgood (Or.inr hzero) hlow hmore (hnext hleads)
  refine ((heffect.does d).mono fun _ d' hd' => ?_).run hleads
  rw [hd', set_read_self hzero]
  rfl

/-- What was jumped over stays. -/
theorem steady_jump (hgood : Good s) (hmore : destinations more = []) {x : Nat}
    (hlow : s.position + instructionSize ≤ x)
    (hhigh : x < s.position + instructionSize + size more) :
    Steady (s.emit (.instruction 0 0 (.known next) :: more)) x := by
  have hstart := hgood.position
  simp only [instructionSize] at hlow
  refine Or.inr ⟨?_, fun hmem => ?_⟩
  · show x < s.position + size _
    simp only [size, List.map_cons, List.sum_cons, Piece.size] at hhigh ⊢
    omega
  rw [toList_emit, destinations_append] at hmem
  rcases List.mem_append.mp hmem with hmem | hmem
  · rcases hgood.closed x hmem with h | h
    · have hcode := Linked.addTable_lt_codeStart
      omega
    · omega
  · have hzero : x = 0 := by
      simpa [destinations, show List.filterMap _ more = [] from hmore] using hmem
    omega

end Jump

/-- Pieces with nothing that writes are jumped over, and stay. -/
theorem jumpOver_exec {s : State} {pieces : List Piece} (hpieces : destinations pieces = []) :
    Exec (jumpOver pieces) s fun a t => Effect L s t id ∧
      (∀ x, a ≤ x → x < a + size pieces → Steady t x) ∧
      ∃ before, t.pieces.toList = before ++ pieces ∧ a = codeStart + size before := by
  refine .good fun hgood => ?_
  refine .of_run (run_jumpOver pieces s) (closed_jump hpieces) fun _ => ⟨?_, ?_, ?_⟩
  · exact effect_jump hgood hpieces fun _ => rfl
  · exact fun x hlow hhigh => steady_jump hgood hpieces hlow hhigh
  · refine ⟨s.pieces.toList ++ [.instruction 0 0 (.known (s.position + instructionSize +
      size pieces))], ?_, ?_⟩
    · rw [toList_emit]
      simp
    · rw [size_append, hgood.position]
      simp [size, Piece.size, Nat.add_assoc]

/-- The byte at an address never changes and has the value. -/
def Shown (t : State) (a : Nat) (value : UInt8) : Prop :=
  Steady t a ∧ (Leads L t → ∀ d, L.read d a = value)

variable {L} in
/-- A byte that is a piece of its own. -/
theorem read_byteAt {t : State} {a : Nat} {value : UInt8} (hleads : Leads L t)
    (h : ByteAt t.pieces.toList a value) (d : Contents) : L.read d a = value := by
  obtain ⟨before, behind, hpieces, haddress⟩ := h
  obtain ⟨later, hlater, -⟩ := hleads.code
  have hsplit : L.pieces = before ++ .bytes [value] :: (behind ++ later) := by
    rw [hlater, hpieces]
    simp
  have hbyte := L.code before _ _ hsplit 0 (by simp [Piece.fill])
  rw [Nat.add_zero, ← haddress] at hbyte
  have hcode := Linked.addTable_lt_codeStart
  have hstop : a < L.stop := by
    unfold Linked.stop
    rw [hsplit, size_append, haddress]
    simp [size, Piece.size]
  unfold Linked.read
  rw [if_pos ⟨by omega, hstop⟩, hbyte]
  rfl

/-- A byte constant is remembered. -/
theorem Good.remember {t : State} {a : Nat} {value : UInt8} (h : Good t) (hless : a < t.position)
    (hkept : a ∉ destinations t.pieces.toList) (hbyte : ByteAt t.pieces.toList a value) :
    Good { t with byteConstants := (value, a) :: t.byteConstants } := by
  refine ⟨h.position, h.closed, fun other b hb => ?_, h.mark, h.points⟩
  dsimp only at hb
  rw [List.lookup_cons] at hb
  split at hb
  · rename_i heq
    obtain rfl := Option.some.inj hb
    obtain rfl := eq_of_beq heq
    exact ⟨hless, hkept, hbyte⟩
  · exact h.bytes other b hb

/-- The byte was placed before and remembered, or it is placed now. -/
theorem byteConstant_exec {s : State} (value : UInt8) :
    Exec (byteConstant value) s fun a t => Effect L s t id ∧ Shown L t a value := by
  refine .good fun hgood => ?_
  unfold byteConstant
  refine .get ?_
  cases hlookup : s.byteConstants.lookup value with
  | some a =>
      refine .pure ⟨.refl s, hgood.steady hlookup, fun hleads d => ?_⟩
      exact read_byteAt hleads (hgood.bytes value a hlookup).2.2 d
  | none =>
      refine (jumpOver_exec L rfl).bind fun a u hgood' hgrows hend => ?_
      obtain ⟨heffect, hsteady, before, hpieces, haddress⟩ := hend
      have hbyte : ByteAt u.pieces.toList a value := ⟨before, [], hpieces, haddress⟩
      have ha := hsteady a (Nat.le_refl _) (by simp [size, Piece.size])
      have hfit := hgood'.position
      rw [hpieces, size_append, ← Nat.add_assoc, ← haddress] at hfit
      have hless : a < u.position := by
        rw [hfit]
        simp [size, Piece.size]
      have hkept : a ∉ destinations u.pieces.toList := by
        rcases ha with hlow | ⟨-, hkept⟩
        · omega
        · exact hkept
      refine ⟨fun _ b t hrun => ?_⟩
      cases hrun
      refine ⟨hgood'.remember hless hkept hbyte, ?_, ⟨heffect.kept.trans ⟨rfl, rfl, rfl, rfl, rfl⟩,
        heffect.mark, ?_⟩, ha, ?_⟩
      · exact ⟨(Grows.refl u).code, fun _ _ h => h, fun _ _ h => .inl h, fun _ _ h => h⟩
      · exact fun d => ⟨fun hleads => (heffect.does d).run ⟨hleads.code, hleads.strings,
          hleads.points⟩⟩
      · exact fun hleads d => read_byteAt ⟨hleads.code, hleads.strings, hleads.points⟩ hbyte d

/-- A byte set to a value. -/
theorem setByte_exec {s : State} {destination : Nat} (h : destination < addTable) (value : UInt8) :
    Exec (setByte destination value) s fun _ t => Effect L s t fun d => d.set destination value := by
  refine (byteConstant_exec L value).bind fun a u hgood hgrows hend => ?_
  obtain ⟨heffect, hsteady, hread⟩ := hend
  refine (copy_exec L h).mono fun _ t hgood' hgrows' hcopy => ?_
  have hboth := heffect.trans hgrows' (hcopy.2.2 (Or.inl hsteady))
  refine ⟨hboth.kept, hboth.mark, fun d => (hboth.does d).mono fun hleads d' hd' => ?_⟩
  rw [hd', hread (hleads.before hgrows')]
  rfl

/-- By induction on the number of bytes, each by a copy of a constant. -/
theorem setBytes_exec : ∀ {length destination value : Nat} {s : State},
    destination + length ≤ addTable →
    Exec (setBytes destination length value) s fun _ t =>
      Effect L s t fun d => d.write destination length value
  | 0, destination, value, s, _ => Exec.pure (Effect.refl s)
  | length + 1, destination, value, s, h => by
      rw [setBytes]
      refine (setByte_exec L (by omega) _).bind fun _ u _ _ hfirst => ?_
      refine (setBytes_exec (by omega)).mono fun _ t _ hgrows hrest => ?_
      exact hfirst.trans hgrows hrest

/-- The bytes of the immediate register from `width` on are zero. -/
theorem clearFrom_exec {s : State} {width : Nat} (h : width ≤ registerSize) :
    Exec (clearFrom width) s fun _ t =>
      Effect L s t fun d => d.write (immediate + width) (registerSize - width) 0 := by
  refine setBytes_exec L ?_
  simp only [immediate, addTable, registerSize] at h ⊢
  omega

/-- A string is remembered, and stays where it is. -/
theorem stringConstant_exec {s : State} (text : String) :
    Exec (stringConstant text) s fun a t => Effect L s t id ∧ t.strings.lookup text = some a := by
  unfold stringConstant
  refine .get ?_
  cases hlookup : s.strings.lookup text with
  | some a => exact .pure ⟨.refl s, hlookup⟩
  | none =>
      refine ⟨fun hgood b t hrun => ?_⟩
      have hjump := run_jumpOver [.bytes text.toUTF8.toList] s
      obtain ⟨hgood', hgrows, heffect, -, before, hpieces, haddress⟩ :=
        (jumpOver_exec L rfl).run hgood _ _ hjump
      dsimp only at hrun
      rw [run_bind hjump] at hrun
      cases hrun
      have hstrings : ∀ other a, s.strings.lookup other = some a →
          ((text, s.position + instructionSize) :: s.strings).lookup other = some a := by
        intro other a ha
        rw [List.lookup_cons]
        split
        · rename_i heq
          rw [eq_of_beq heq, hlookup] at ha
          cases ha
        · exact ha
      have htext : TextAt _ (s.position + instructionSize) text := ⟨before, [], hpieces, haddress⟩
      refine ⟨⟨hgood'.position, hgood'.closed, hgood'.bytes, hgood'.mark, hgood'.points⟩,
        ⟨hgrows.code, hstrings, fun other a ha => ?_, hgrows.points⟩,
        ⟨heffect.kept.trans ⟨rfl, rfl, rfl, rfl, rfl⟩, heffect.mark,
          fun d => ⟨fun hleads => (heffect.does d).run ?_⟩⟩, List.lookup_cons_self⟩
      · rw [List.lookup_cons] at ha
        split at ha
        · rename_i heq
          obtain rfl := eq_of_beq heq
          cases ha
          exact .inr htext
        · exact .inl ha
      · exact ⟨hleads.code, fun other a ha => hleads.strings other a (hstrings other a ha),
          hleads.points⟩

/-! ## Ranges

Copying a range byte by byte is copying it as a whole, as long as the target does not run into
bytes that are still to be read. -/

/-- Bytes copied one after the other. -/
def moved (d : Contents) (source destination : Nat) : Nat → Contents
  | 0 => d
  | length + 1 =>
      moved (d.set destination (L.read d source)) (source + 1) (destination + 1) length

/-- By induction on the length. -/
theorem copyRange_exec : ∀ {length source destination : Nat} {s : State},
    destination + length ≤ addTable →
    Exec (copyRange source destination length) s fun _ t => Kept s t ∧ t.mark = s.mark ∧
      ((∀ i < length, Readable L s (source + i)) →
        Effect L s t fun d => moved L d source destination length)
  | 0, source, destination, s, _ => Exec.pure ⟨.refl s, rfl, fun _ => Effect.refl s⟩
  | length + 1, source, destination, s, h => by
      rw [copyRange]
      refine .good fun hgood => ?_
      refine (copy_exec L (by omega)).bind fun _ u _ hgrows hfirst => ?_
      obtain ⟨hkept, hmark, hcopy⟩ := hfirst
      refine (copyRange_exec (by omega)).mono fun _ t _ hgrows' hrest => ?_
      obtain ⟨hkept', hmark', hcopies⟩ := hrest
      refine ⟨hkept.trans hkept', hmark'.trans hmark, fun hreadable => ?_⟩
      refine (hcopy (hreadable 0 (by omega))).trans hgrows' (hcopies fun i hi => ?_)
      have hi' := hreadable (i + 1) (by omega)
      rw [Nat.add_comm i 1, ← Nat.add_assoc] at hi'
      exact hi'.mono hgood hgrows

variable {L}

theorem moved_outside {a : Nat} : ∀ {length source destination : Nat} {d : Contents},
    a < destination ∨ destination + length ≤ a → moved L d source destination length a = d a
  | 0, _, _, _, _ => rfl
  | length + 1, source, destination, d, h => by
      rw [moved, moved_outside (by omega), Contents.set_of_ne (by omega)]

theorem read_set_of_ne {d : Contents} {a b : Nat} {v : UInt8} (h : b ≠ a) :
    L.read (d.set a v) b = L.read d b := by
  unfold Linked.read
  rw [Contents.set_of_ne h]

/-- What stands in the target is what stood in the source. -/
theorem moved_inside : ∀ {length source destination i : Nat} {d : Contents},
    source + length ≤ destination ∨ destination + length ≤ source → i < length →
    moved L d source destination length (destination + i) = L.read d (source + i)
  | length + 1, source, destination, 0, d, _, _ => by
      rw [moved, moved_outside (by omega)]
      exact Contents.set_self _ _ _
  | length + 1, source, destination, i + 1, d, h, hi => by
      have hrest : moved L (d.set destination (L.read d source)) (source + 1) (destination + 1) length
          (destination + 1 + i) = L.read (d.set destination (L.read d source)) (source + 1 + i) :=
        moved_inside (by omega) (by omega)
      rw [moved, Nat.add_comm i 1, ← Nat.add_assoc, ← Nat.add_assoc, hrest]
      exact read_set_of_ne (by omega)

variable (L)

/-! ## Patched instructions

The fields are changed by copies in front, and the instruction runs with what it then says.  Its
source and destination come from the data, so `Patching` takes them as hypotheses on the data. -/

/-- The code between two states copies into the fields of its last instruction, which is reached with
the source and the destination that they name by then. -/
structure Patching (s t : State) (d : Contents) (src dst : Nat) : Prop where
  run : Leads L t → ∀ c, L.Intact c → L.Shows d c → ∃ k c' pc,
    Climbs L.size k c s.position c' pc ∧ L.Intact c' ∧ L.Shows d c' ∧
      Linked.Copies L c' pc src dst ∧ t.position = pc + instructionSize

theorem patching_exec {s : State} {fields : List (Nat × Nat)} {source destination : Nat}
    (hfields : ∀ f ∈ fields, f.1 < addTable ∧ f.2 < nextField)
    (hnodup : (fields.map Prod.snd).Nodup) (hdestination : destination < addTable) :
    Exec (patched fields source destination) s fun _ t => Kept s t ∧ t.mark = s.mark ∧
      ∀ d src dst, (Linked.patchedField d fields sourceField source).number 0 addressSize = src →
        (Linked.patchedField d fields destinationField destination).number 0 addressSize = dst →
        Patching L s t d src dst := by
  refine .good fun hgood => ?_
  have hsize := size_patchedPieces s.position fields source destination
  have hclosed : Closed s.position (patchedPieces s.position fields source destination) := by
    intro a ha
    rw [destinations_patchedPieces] at ha
    rcases List.mem_append.mp ha with hfield | hlast
    · obtain ⟨f, hf, rfl⟩ := List.mem_map.mp hfield
      have hlt := (hfields f hf).2
      simp only [nextField] at hlt
      refine Or.inr ⟨by omega, ?_⟩
      rw [hsize]
      simp only [instructionSize]
      omega
    · obtain rfl := List.mem_singleton.mp hlast
      exact Or.inl hdestination
  refine .of_run (run_patched fields source destination s) hclosed fun _ => ?_
  refine ⟨⟨rfl, rfl, rfl, rfl, rfl⟩, rfl, fun d src dst hsrc hdst => ?_⟩
  refine ⟨fun hleads c hintact hshows => ?_⟩
  have hcode := Linked.addTable_lt_codeStart
  have hstart := hgood.position
  obtain ⟨behind, hbehind, -⟩ := hleads.code
  rw [toList_emit] at hbehind
  have hend : (s.emit (patchedPieces s.position fields source destination)).position =
      s.position + fields.length * instructionSize + instructionSize := by
    show s.position + size _ = _
    rw [hsize]
    ring
  have hkept : ∀ a, s.position ≤ a → a < s.position + (fields.length + 1) * instructionSize →
      (∀ f ∈ fields, a ≠ s.position + fields.length * instructionSize + f.2) →
      a ∉ destinations L.pieces := by
    intro a hlow hhigh hne
    refine hleads.kept hgood (toList_emit _ _) rfl hlow ?_ fun hmem => ?_
    · rw [hend]
      rwa [Nat.add_mul, Nat.one_mul, ← Nat.add_assoc] at hhigh
    rw [destinations_patchedPieces] at hmem
    rcases List.mem_append.mp hmem with hfield | hlast
    · obtain ⟨f, hf, heq⟩ := List.mem_map.mp hfield
      exact hne f hf heq.symm
    · obtain rfl := List.mem_singleton.mp hlast
      omega
  obtain ⟨c', hclimbs, hintact', hshows', hcopies, -⟩ := Linked.run_patching hbehind hstart hkept
    hfields hnodup hintact hshows hsrc hdst
  exact ⟨_, c', _, hclimbs, hintact', hshows', hcopies, hend⟩

variable {L} in
/-- A byte of memory is copied to data, whatever it is. -/
theorem Patching.does {s t : State} {d : Contents} {src dst : Nat} (h : Patching L s t d src dst)
    (hsrc : src < L.size) (hdst : L.IsData dst) :
    Does L s t d fun d' => ∃ b, d' = d.set dst b ∧ ((L.IsData src ∨ addTable ≤ src ∧ src < L.stop ∧
      src ∉ destinations L.pieces) → b = L.read d src) := by
  refine ⟨fun hleads c hintact hshows => ?_⟩
  obtain ⟨k, c', pc, hclimbs, hintact', hshows', hcopies, hend⟩ := h.run hleads c hintact hshows
  have hstep := hcopies.step hsrc hdst.lt_size
  have hlast := Climbs.one hstep (Nat.lt_add_of_pos_right (by decide))
  rw [hend]
  exact ⟨k + 1, _, _, hclimbs.trans hlast, hintact'.set (Or.inl hdst), hshows'.set_data,
    c' src, rfl, Linked.eq_read hintact' hshows'⟩

/-- A patched instruction that stands for a destination in data copies the byte that its fields name
by then. -/
theorem patched_exec {s : State} {fields : List (Nat × Nat)} {source destination : Nat}
    (hfields : ∀ f ∈ fields, f.1 < addTable ∧ f.2 < nextField)
    (hnodup : (fields.map Prod.snd).Nodup) (hdestination : destination < addTable) :
    Exec (patched fields source destination) s fun _ t => Kept s t ∧ t.mark = s.mark ∧
      ∀ d src dst, (Linked.patchedField d fields sourceField source).number 0 addressSize = src →
        (Linked.patchedField d fields destinationField destination).number 0 addressSize = dst →
        (L.IsData src ∨ addTable ≤ src ∧ src < codeStart) → L.IsData dst →
        Does L s t d fun d' => d' = d.set dst (L.read d src) := by
  refine (patching_exec L hfields hnodup hdestination).mono fun _ t hgood _ hpatching => ?_
  obtain ⟨hkept, hmark, hpatches⟩ := hpatching
  refine ⟨hkept, hmark, fun d src dst hsrc hdst hsrc' hdst' => ⟨fun hleads => ?_⟩⟩
  have hsteady : L.IsData src ∨ addTable ≤ src ∧ src < L.stop ∧ src ∉ destinations L.pieces := by
    rcases hsrc' with hdata | ⟨-, htable⟩
    · exact Or.inl hdata
    · exact hleads.steady hgood (Or.inl htable)
  have hsize : src < L.size := by
    have hstop : L.stop ≤ L.size := Nat.le_add_right _ _
    rcases hsteady with hdata | ⟨-, hlt, -⟩
    · exact hdata.lt_size
    · omega
  refine (((hpatches d src dst hsrc hdst).does hsize hdst').mono fun _ d' hd' => ?_).run hleads
  obtain ⟨b, rfl, hb⟩ := hd'
  rw [hb hsteady]

/-! ## Registers

Registers are handed out and given back without any code. -/

/-- Nothing was emitted. -/
structure Still (s t : State) : Prop where
  kept : Kept s t
  position : t.position = s.position

theorem Still.does {s t : State} (h : Still s t) (d : Contents) : Does L s t d fun d' => d = d' :=
  .nothing h.position rfl

/-- The registers start at the mark, which goes up behind them. -/
theorem allocate_exec {s : State} (count : Nat) (site : Location) :
    Exec (allocate count site) s fun r t => Still s t ∧ r = s.mark ∧ t.mark = s.mark + count ∧
      t.mark ≤ registerCount := by
  unfold allocate
  refine .get ?_
  dsimp only
  split
  · rename_i hfits
    refine ⟨fun hgood b t hrun => ?_⟩
    cases hrun
    refine ⟨⟨hgood.position, hgood.closed, hgood.bytes, hfits, hgood.points⟩,
      ⟨(Grows.refl s).code, fun _ _ h => h, fun _ _ h => .inl h, fun _ _ h => h⟩, ⟨⟨rfl, rfl, rfl, rfl, rfl⟩, rfl⟩,
      rfl, rfl, hfits⟩
  · exact .throw

/-- The mark goes back. -/
theorem release_exec {s : State} {mark : Nat} (h : mark ≤ registerCount) :
    Exec (release mark) s fun _ t => Still s t ∧ t.mark = mark := by
  refine ⟨fun hgood b t hrun => ?_⟩
  cases hrun
  exact ⟨⟨hgood.position, hgood.closed, hgood.bytes, h, hgood.points⟩,
    ⟨(Grows.refl s).code, fun _ _ h => h, fun _ _ h => .inl h, fun _ _ h => h⟩, ⟨⟨rfl, rfl, rfl, rfl, rfl⟩, rfl⟩, rfl⟩

end Emit

end ByteJump
