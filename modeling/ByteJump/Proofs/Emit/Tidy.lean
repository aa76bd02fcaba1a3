import ByteJump.Proofs.Emit.Segments
import ByteJump.Proofs.Emit.Trace

set_option autoImplicit false

/-!
# Code in segments

Emitting a program without jumps to computed addresses, raw words and stores keeps the code a row of
segments.  Points and the entry are places between segments.  A
jump never goes to itself, because the point it goes to is placed in front of the code it stands behind
or later than the jump.

`Laid` is a grammar of segments, and this module shows that emission only produces its sentences.
A state is `Tidy` if the code so far is laid in segments, the points and the entry are cuts
between them, and registers in use are those below the highest mark.  The flag `tested` says
whether the last segment has left the place of an entry in the immediate register, which a choice
asks for.  `Lays base tested x s tested' Q` is the triple for a computation: from a tidy state
with the one flag to a tidy state with the other.  The lemmas follow the functions of the
emission, with one for each way in which an expression is built.
-/

namespace ByteJump

namespace Emit

open Assembly Memory

variable {α β : Type}

/-! ## Tidy states -/

/-- The code is a row of segments, and what is remembered of it is true. -/
structure Tidy (tested : Bool) (s : State) : Prop where
  position : s.position = codeStart + size s.pieces.toList
  mark : s.mark ≤ s.highest
  highest : s.highest ≤ registerCount
  laid : Laid s.highest codeStart false s.pieces.toList tested
  bytes : ∀ x ∈ s.byteConstants, PieceAt codeStart s.pieces.toList x.2 (.bytes [x.1])
  strings : ∀ x ∈ s.strings, PieceAt codeStart s.pieces.toList x.2 (.bytes x.1.toUTF8.toList)
  points : ∀ x ∈ s.points, x.1 ≤ s.serial ∧ Cut s.highest s.pieces.toList tested x.2
  entry : ∀ a, s.entry = some a → Cut s.highest s.pieces.toList tested a
  registers : ∀ x ∈ s.bindings.registers, x.2 ≤ registerCount
  jumps : ∀ a role serial, PieceAt codeStart s.pieces.toList a
    (.instruction 0 0 (.address (.point role serial) none)) →
    ∀ x ∈ s.points, x.1 = serial → x.2 ≠ a

/-- Nothing that was there is taken back, and points placed in between have serials above a base. -/
structure Onward (base : Nat) (s t : State) : Prop where
  position : s.position ≤ t.position
  highest : s.highest ≤ t.highest
  serial : s.serial ≤ t.serial
  points : ∀ x ∈ t.points, x ∈ s.points ∨ base < x.1

section Tidy

variable {base : Nat} {tested tested' : Bool} {s t u : State} {more : List Piece}

theorem Onward.refl (s : State) : Onward base s s :=
  ⟨Nat.le_refl _, Nat.le_refl _, Nat.le_refl _, fun _ h => Or.inl h⟩

/-- Code only grows, and the highest mark only rises. -/
theorem Onward.trans (h : Onward base s t) (h' : Onward base t u) : Onward base s u := by
  refine ⟨Nat.le_trans h.position h'.position, Nat.le_trans h.highest h'.highest,
    Nat.le_trans h.serial h'.serial, fun x hx => ?_⟩
  exact (h'.points x hx).elim (h.points x) Or.inr

theorem Onward.emit (s : State) (more : List Piece) : Onward base s (s.emit more) :=
  ⟨Nat.le_add_right _ _, Nat.le_refl _, Nat.le_refl _, fun _ h => Or.inl h⟩

/-- More segments, of which a jump does not go to itself. -/
theorem Tidy.emit (h : Tidy tested s) (hmore : Segment s.highest s.position tested more tested')
    (hjump : ∀ role serial, .instruction 0 0 (.address (.point role serial) none) ∈ more →
      ∀ x ∈ s.points, x.1 = serial → x.2 ≠ s.position) : Tidy tested' (s.emit more) := by
  have hpieces := toList_emit s more
  have hlaid : Laid s.highest (codeStart + size s.pieces.toList) tested more tested' :=
    h.position ▸ hmore.laid
  have hcut : ∀ {a}, Cut s.highest s.pieces.toList tested a →
      Cut s.highest (s.emit more).pieces.toList tested' a := by
    intro a ha
    rw [hpieces]
    exact ha.append hlaid
  refine ⟨?_, h.mark, h.highest, ?_, ?_, ?_, ?_, ?_, h.registers, ?_⟩
  · rw [State.position_emit, hpieces, size_append, h.position, Nat.add_assoc]
  · rw [hpieces]
    exact h.laid.append hlaid
  · intro x hx
    rw [hpieces]
    exact (h.bytes x hx).left
  · intro x hx
    rw [hpieces]
    exact (h.strings x hx).left
  · exact fun x hx => ⟨(h.points x hx).1, hcut (h.points x hx).2⟩
  · exact fun a ha => hcut (h.entry a ha)
  · intro a role serial ha x hx hserial
    rw [hpieces] at ha
    rcases pieceAt_append ha with hbefore | hbehind
    · exact h.jumps a role serial hbefore x hx hserial
    · rcases hmore.allKnown_or_jump with hknown | ⟨role', serial', rfl⟩
      · cases hknown _ _ _ hbehind.mem
      · -- the jump itself, which stands where the code ended
        have hfits := hbehind.fits
        have hone : a = s.position := by
          have hsize : size [Piece.instruction 0 0 (.address (.point role' serial') none)] =
              instructionSize := rfl
          rw [hsize] at hfits
          simp only [Piece.size] at hfits
          rw [h.position]
          omega
        rw [hone]
        exact hjump role serial hbehind.mem x hx hserial

/-- More registers may be in use. -/
theorem Tidy.raise (h : Tidy tested s) {mark : Nat} (hmark : mark ≤ registerCount) :
    Tidy tested { s with mark := mark, highest := max s.highest mark } := by
  have hle : s.highest ≤ max s.highest mark := Nat.le_max_left _ _
  have hcount : max s.highest mark ≤ registerCount := Nat.max_le.mpr ⟨h.highest, hmark⟩
  exact ⟨h.position, Nat.le_max_right _ _, hcount, h.laid.mono hle hcount, h.bytes, h.strings,
    fun x hx => ⟨(h.points x hx).1, (h.points x hx).2.mono hle hcount⟩,
    fun a ha => (h.entry a ha).mono hle hcount, h.registers, h.jumps⟩

/-- What is known of the test is forgotten. -/
theorem Tidy.forget (h : Tidy true s) : Tidy false s := by
  have hforget : Laid s.highest (codeStart + size s.pieces.toList) true [] false := .forget .nil
  have hcut : ∀ {a}, Cut s.highest s.pieces.toList true a →
      Cut s.highest s.pieces.toList false a := by
    intro a ha
    have ha' := ha.append hforget
    rwa [List.append_nil] at ha'
  have hlaid := h.laid.append hforget
  rw [List.append_nil] at hlaid
  exact ⟨h.position, h.mark, h.highest, hlaid, h.bytes, h.strings,
    fun x hx => ⟨(h.points x hx).1, hcut (h.points x hx).2⟩, fun a ha => hcut (h.entry a ha),
    h.registers, h.jumps⟩

/-- Here is a place between segments. -/
theorem Tidy.cut (h : Tidy false s) : Cut s.highest s.pieces.toList false s.position :=
  h.position ▸ cut_end (h.laid.closed h.highest)

end Tidy

/-! ## Rules

A flag that is set may be forgotten, as a state behind a test is a tidy state like any other.
`Anyhow` is the postcondition of what has no result that matters. -/

/-- From a tidy state emitting goes on to a tidy state, and then `Q` holds; a fault is not looked
at. -/
structure Lays (base : Nat) (tested : Bool) (x : Emitter α) (s : State) (tested' : Bool)
    (Q : α → State → Prop) : Prop where
  run : Tidy tested s → ∀ a t, x s = .ok a t → Tidy tested' t ∧ Onward base s t ∧ Q a t

/-- Nothing is said about the result. -/
def Anyhow (_ : α) (_ : State) : Prop := True

section Rules

variable {base : Nat} {tested tested' tested'' : Bool} {s : State} {Q : α → State → Prop}

theorem Lays.pure {a : α} (h : Q a s) : Lays base tested (Pure.pure a) s tested Q := by
  refine ⟨fun htidy b t hrun => ?_⟩
  cases hrun
  exact ⟨htidy, .refl s, h⟩

theorem Lays.throw {e : Fault} : Lays base tested (MonadExcept.throw e) s tested' Q := by
  refine ⟨fun htidy b t hrun => ?_⟩
  cases hrun

theorem Lays.get {f : State → Emitter α} (h : Lays base tested (f s) s tested' Q) :
    Lays base tested (MonadState.get >>= f) s tested' Q := ⟨h.run⟩

theorem Lays.position {f : Nat → Emitter α} (h : Lays base tested (f s.position) s tested' Q) :
    Lays base tested (Emit.position >>= f) s tested' Q := ⟨h.run⟩

/-- The second part starts with the flag that the first one leaves. -/
theorem Lays.bind {x : Emitter β} {f : β → Emitter α} {P : β → State → Prop}
    (h : Lays base tested x s tested' P)
    (hf : ∀ b u, Onward base s u → P b u → Lays base tested' (f b) u tested'' Q) :
    Lays base tested (x >>= f) s tested'' Q := by
  refine ⟨fun htidy a t hrun => ?_⟩
  obtain ⟨b, u, hx, hfb⟩ := ok_bind hrun
  obtain ⟨htidy', honward, hP⟩ := h.run htidy b u hx
  obtain ⟨htidy'', honward', hQ⟩ := (hf b u honward hP).run htidy' a t hfb
  exact ⟨htidy'', honward.trans honward', hQ⟩

/-- What is said of the result is weakened. -/
theorem Lays.mono {x : Emitter α} {P : α → State → Prop} (h : Lays base tested x s tested' P)
    (hPQ : ∀ a t, Tidy tested' t → Onward base s t → P a t → Q a t) :
    Lays base tested x s tested' Q := by
  refine ⟨fun htidy a t hrun => ?_⟩
  obtain ⟨htidy', honward, hP⟩ := h.run htidy a t hrun
  exact ⟨htidy', honward, hPQ a t htidy' honward hP⟩

/-- Nothing is said about the first part. -/
theorem Lays.andThen {x : Emitter β} {f : β → Emitter α} (h : Lays base tested x s false Anyhow)
    (hf : ∀ b u, Onward base s u → Lays base false (f b) u tested' Q) :
    Lays base tested (x >>= f) s tested' Q := h.bind fun b u honward _ => hf b u honward

theorem Lays.anyhow {x : Emitter α} (h : Lays base tested x s tested' Q) :
    Lays base tested x s tested' Anyhow := h.mono fun _ _ _ _ _ => trivial

/-- The state is tidy to begin with. -/
theorem Lays.tidy {x : Emitter α} (h : Tidy tested s → Lays base tested x s tested' Q) :
    Lays base tested x s tested' Q := ⟨fun htidy => (h htidy).run htidy⟩

theorem Lays.forget {x : Emitter α} (h : Lays base tested x s true Q) :
    Lays base tested x s false Q := by
  refine ⟨fun htidy a t hrun => ?_⟩
  obtain ⟨htidy', hrest⟩ := h.run htidy a t hrun
  exact ⟨htidy'.forget, hrest⟩

/-- An update that keeps the state tidy. -/
theorem Lays.update {f : State → State} (h : Tidy tested s → Tidy tested' (f s))
    (honward : Onward base s (f s)) : Lays base tested (modify f) s tested' Anyhow := by
  refine ⟨fun htidy a t hrun => ?_⟩
  cases hrun
  exact ⟨h htidy, honward, trivial⟩

/-- A segment without a symbol is laid down. -/
theorem Lays.emit {x : Emitter α} {a : α} {more : List Piece} (hrun : x s = .ok a (s.emit more))
    (hmore : Tidy tested s → Segment s.highest s.position tested more tested')
    (hknown : AllKnown more) (h : Tidy tested' (s.emit more) → Q a (s.emit more)) :
    Lays base tested x s tested' Q := by
  refine ⟨fun htidy b t hb => ?_⟩
  rw [hrun] at hb
  cases hb
  have htidy' := htidy.emit (hmore htidy) fun role serial hmem => by cases hknown _ _ _ hmem
  exact ⟨htidy', .emit s more, h htidy'⟩

end Rules

/-- What is found by a key was listed under it. -/
theorem mem_of_lookup {κ : Type} [BEq κ] [LawfulBEq κ] {key : κ} {a : Nat} {l : List (κ × Nat)}
    (h : l.lookup key = some a) : (key, a) ∈ l := by
  obtain ⟨before, behind, rfl, -⟩ := List.lookup_eq_some_iff.mp h
  exact List.mem_append_right _ List.mem_cons_self

/-! ## Primitives

Each of them adds one segment, or a row of copies.  The addresses it reads are in front of the
code that is to come, and those it writes to are registers in use or the immediate. -/

section Primitives

variable {base : Nat} {tested : Bool} {s : State}

/-- A copy is a segment of its own. -/
theorem copy_lays {source destination : Nat} (hsource : source < s.position)
    (hdestination : Slot s.highest destination) (htested : tested = true → destination ≠ immediate) :
    Lays base tested (copy source destination) s tested Anyhow :=
  .emit (run_copy _ _ s) (fun _ => .copy hsource hdestination htested) (allKnown_instruction _ _ _)
    fun _ => trivial

theorem copyRange_lays (length : Nat) : ∀ {source destination : Nat} {s : State},
    source + length ≤ s.position → (∀ i < length, Slot s.highest (destination + i)) →
    (tested = true → ∀ i < length, destination + i ≠ immediate) →
    Lays base tested (copyRange source destination length) s tested Anyhow := by
  induction length with
  | zero => exact fun _ _ _ => .pure trivial
  | succ length ih =>
      intro source destination s hsource hdestination htested
      rw [copyRange]
      refine (copy_lays (by omega) (hdestination 0 (by omega))
        fun htrue => htested htrue 0 (by omega)).bind fun _ u honward _ => .tidy fun htidy => ?_
      have hposition := honward.position
      refine ih (by omega) (fun i hi => ?_) fun htrue i hi => ?_
      · have hslot := hdestination (i + 1) (by omega)
        rw [Nat.add_comm i 1, ← Nat.add_assoc] at hslot
        exact hslot.mono honward.highest htidy.highest
      · have hne := htested htrue (i + 1) (by omega)
        rwa [Nat.add_comm i 1, ← Nat.add_assoc] at hne

/-- Data is jumped over, and stands at the address that is returned. -/
theorem jumpOver_lays {data : List Piece} (hdata : ∀ piece ∈ data, piece.isInstruction = false) :
    Lays base tested (jumpOver data) s tested fun a t => a + size data ≤ t.position ∧
      ∀ piece rest, data = piece :: rest → PieceAt codeStart t.pieces.toList a piece := by
  refine .tidy fun htidy => .emit (run_jumpOver data s) (fun _ => .skipped hdata)
    (allKnown_over _ hdata) fun htidy' => ⟨?_, fun piece rest hpieces => ?_⟩
  · rw [State.position_emit, size_cons, ← Nat.add_assoc]
    exact Nat.le_refl _
  · have hhead : PieceAt (s.position + instructionSize) data (s.position + instructionSize)
        piece := hpieces ▸ pieceAt_head
    have hwhole : PieceAt s.position ([.instruction 0 0
        (.known (s.position + instructionSize + size data))] ++ data)
        (s.position + instructionSize) piece := PieceAt.right hhead
    rw [toList_emit]
    refine PieceAt.right ?_
    rw [← htidy.position]
    exact hwhole

theorem byteConstant_lays (value : UInt8) :
    Lays base tested (byteConstant value) s tested fun a t => a < t.position := by
  unfold byteConstant
  refine .tidy fun htidy => .get ?_
  cases hlookup : s.byteConstants.lookup value with
  | some address =>
      have hbyte := (htidy.bytes _ (mem_of_lookup hlookup)).fits.2
      rw [← htidy.position] at hbyte
      exact .pure hbyte
  | none =>
      refine (jumpOver_lays (by simp [Piece.isInstruction])).bind fun address t _ hover => ?_
      obtain ⟨hposition, hpiece⟩ := hover
      refine (Lays.update (fun htidy => ?_) ?_).bind fun _ u honward _ => .pure ?_
      · refine ⟨htidy.position, htidy.mark, htidy.highest, htidy.laid, fun x hx => ?_,
          htidy.strings, htidy.points, htidy.entry, htidy.registers, htidy.jumps⟩
        rcases List.mem_cons.mp hx with rfl | hx
        · exact hpiece _ _ rfl
        · exact htidy.bytes x hx
      · exact ⟨Nat.le_refl _, Nat.le_refl _, Nat.le_refl _, fun _ h => Or.inl h⟩
      · exact Nat.lt_of_lt_of_le hposition honward.position

theorem stringConstant_lays (text : String) :
    Lays base tested (stringConstant text) s tested Anyhow := by
  unfold stringConstant
  refine .get ?_
  cases s.strings.lookup text with
  | some address => exact .pure trivial
  | none =>
      refine (jumpOver_lays (by simp [Piece.isInstruction])).bind fun address t _ hover => ?_
      refine (Lays.update (fun htidy => ?_) ?_).bind fun _ u _ _ => .pure trivial
      · refine ⟨htidy.position, htidy.mark, htidy.highest, htidy.laid, htidy.bytes, fun x hx => ?_,
          htidy.points, htidy.entry, htidy.registers, htidy.jumps⟩
        rcases List.mem_cons.mp hx with rfl | hx
        · exact hover.2 _ _ rfl
        · exact htidy.strings x hx
      · exact ⟨Nat.le_refl _, Nat.le_refl _, Nat.le_refl _, fun _ h => Or.inl h⟩

theorem setByte_lays {destination : Nat} (value : UInt8) (hdestination : Slot s.highest destination)
    (htested : tested = true → destination ≠ immediate) :
    Lays base tested (setByte destination value) s tested Anyhow := by
  refine (byteConstant_lays value).bind fun source t honward hsource => .tidy fun htidy => ?_
  exact copy_lays hsource (hdestination.mono honward.highest htidy.highest) htested

/-- By induction on the number of bytes. -/
theorem setBytes_lays (length : Nat) : ∀ {destination value : Nat} {s : State},
    (∀ i < length, Slot s.highest (destination + i)) →
    (tested = true → ∀ i < length, destination + i ≠ immediate) →
    Lays base tested (setBytes destination length value) s tested Anyhow := by
  induction length with
  | zero => exact fun _ _ => .pure trivial
  | succ length ih =>
      intro destination value s hdestination htested
      rw [setBytes]
      refine (setByte_lays _ (hdestination 0 (by omega))
        fun htrue => htested htrue 0 (by omega)).bind fun _ u honward _ => .tidy fun htidy => ?_
      refine ih (fun i hi => ?_) fun htrue i hi => ?_
      · have hslot := hdestination (i + 1) (by omega)
        rw [Nat.add_comm i 1, ← Nat.add_assoc] at hslot
        exact hslot.mono honward.highest htidy.highest
      · have hne := htested htrue (i + 1) (by omega)
        rwa [Nat.add_comm i 1, ← Nat.add_assoc] at hne

/-- Clearing all but the low bytes leaves a test as it is. -/
theorem clearFrom_lays {width : Nat} (h : tested = true → 0 < width) :
    Lays base tested (clearFrom width) s tested Anyhow := by
  refine .tidy fun htidy => setBytes_lays _ (fun i hi => ?_) fun htrue i hi => ?_
  · rw [Nat.add_assoc]
    exact slot_immediate htidy.highest (by omega)
  · have hwidth := h htrue
    omega

/-- The registers handed out are among those in use. -/
theorem allocate_lays (count : Nat) (site : Location) :
    Lays base tested (allocate count site) s tested fun r t =>
      r + count ≤ t.highest ∧ s.mark ≤ r := by
  unfold allocate
  refine .get ?_
  dsimp only
  split
  · rename_i hle
    refine ⟨fun htidy a t hrun => ?_⟩
    cases hrun
    exact ⟨htidy.raise hle, ⟨Nat.le_refl _, Nat.le_max_left _ _, Nat.le_refl _,
      fun _ h => Or.inl h⟩, Nat.le_max_right _ _, Nat.le_refl _⟩
  · exact .throw

/-- The highest mark stays when registers are given back. -/
theorem release_lays {mark : Nat} (h : mark ≤ s.highest) :
    Lays base tested (release mark) s tested Anyhow :=
  .update (fun htidy => ⟨htidy.position, h, htidy.highest, htidy.laid, htidy.bytes, htidy.strings,
    htidy.points, htidy.entry, htidy.registers, htidy.jumps⟩)
    ⟨Nat.le_refl _, Nat.le_refl _, Nat.le_refl _, fun _ h => Or.inl h⟩

/-- A variable is bound to registers that exist. -/
theorem bind_lays (v : Variable) {r : Nat} (h : r ≤ registerCount) :
    Lays base tested (modify fun s => { s with bindings := s.bindings.bind v r }) s tested Anyhow := by
  refine .update (fun htidy => ⟨htidy.position, htidy.mark, htidy.highest, htidy.laid, htidy.bytes,
    htidy.strings, htidy.points, htidy.entry, fun x hx => ?_, htidy.jumps⟩)
    ⟨Nat.le_refl _, Nat.le_refl _, Nat.le_refl _, fun _ h => Or.inl h⟩
  rcases List.mem_cons.mp hx with rfl | hx
  · exact h
  · exact htidy.registers x hx

theorem widthOf_lays (type : Ty) (site : Location) :
    Lays base tested (widthOf type site) s tested Anyhow := by
  unfold widthOf
  cases type.width with
  | some width => exact .pure trivial
  | none => exact .throw

end Primitives

/-! ## Expressions

An expression ends without a test in force, whatever it has tested on the way.  The exception is
logical not, which is where a test comes from. -/

section Expressions

variable {base : Nat} {s : State}

/-- One look-up in the table of bytes. -/
theorem notLookup_lays {x destination : Nat} (tested : Bool) (hx : Slot s.highest x)
    (hdestination : Slot s.highest destination) (htested : tested = true → destination = immediate) :
    Lays base false (patched [(x, sourceField)] notTable destination) s tested Anyhow :=
  .emit (run_patched _ _ _ s)
    (fun htidy => .notLookup (hx.lt_addTable htidy.highest) hdestination htested)
    (allKnown_patchedPieces _ _ _ _) fun _ => trivial

theorem sumLookup_lays {x y destination : Nat} (hx : Slot s.highest x) (hy : Slot s.highest y)
    (hdestination : Slot s.highest destination) :
    Lays base false (patched [(x, sourceField + 1), (y, sourceField)] addTable destination) s false
      Anyhow :=
  .emit (run_patched _ _ _ s) (fun htidy => .sumLookup (hx.lt_addTable htidy.highest)
    (hy.lt_addTable htidy.highest) hdestination) (allKnown_patchedPieces _ _ _ _) fun _ => trivial

/-- A load reads wherever the immediate register points to. -/
theorem load_lays :
    Lays base false (patched (wholeField immediate sourceField) 0 immediate) s false Anyhow :=
  .emit (run_patched _ _ _ s) (fun _ => .load) (allKnown_patchedPieces _ _ _ _) fun _ => trivial

/-- By induction on the bytes that are left; each takes two look-ups. -/
theorem countZeros_lays {total flag : Nat} (count : Nat) : ∀ {i : Nat} {s : State},
    i + count ≤ registerSize → Slot s.highest total → Slot s.highest flag →
    Lays base false (countZeros total flag count i) s false Anyhow := by
  induction count with
  | zero => exact fun _ _ _ => .pure trivial
  | succ count ih =>
      intro i s hi htotal hflag
      rw [countZeros]
      refine .tidy fun htidy => ?_
      refine (notLookup_lays false (slot_immediate htidy.highest (by omega)) hflag
        fun h => by cases h).bind fun _ t honward _ => .tidy fun htidy' => ?_
      have htotal' := htotal.mono honward.highest htidy'.highest
      have hflag' := hflag.mono honward.highest htidy'.highest
      refine (sumLookup_lays htotal' hflag' htotal').bind fun _ u honward' _ => .tidy fun htidy'' => ?_
      exact ih (by omega) (htotal'.mono honward'.highest htidy''.highest)
        (hflag'.mono honward'.highest htidy''.highest)

/-- Behind a logical not the immediate register has been tested. -/
theorem logicalNot_lays (width : Nat) (site : Location) :
    Lays base false (logicalNot width site) s true Anyhow := by
  unfold logicalNot
  dsimp only
  refine .tidy fun htidy => .get ?_
  refine (allocate_lays 1 site).bind fun scratch t honward hscratch => .tidy fun htidy₁ => ?_
  have htotal : Slot t.highest (register scratch) :=
    slot_register (i := 0) htidy₁.highest hscratch.1 (by decide)
  have hflag : Slot t.highest (register scratch + 1) :=
    slot_register htidy₁.highest hscratch.1 (by decide)
  refine (setByte_lays _ htotal fun h => by cases h).bind fun _ u honward₁ _ => .tidy fun htidy₂ => ?_
  have htotal' := htotal.mono honward₁.highest htidy₂.highest
  refine (countZeros_lays _ ?_ htotal' (hflag.mono honward₁.highest htidy₂.highest)).bind
    fun _ v honward₂ _ => .tidy fun htidy₃ => ?_
  · rw [Nat.zero_add]
    exact Nat.max_le.mpr ⟨by decide, Nat.min_le_right _ _⟩
  refine (notLookup_lays true (htotal'.mono honward₂.highest htidy₃.highest)
    (slot_immediate (i := 0) htidy₃.highest (by decide)) fun _ => rfl).bind fun _ w honward₃ _ => ?_
  refine (clearFrom_lays fun _ => Nat.one_pos).bind fun _ x honward₄ _ => release_lays ?_
  have honward' := (((honward.trans honward₁).trans honward₂).trans honward₃).trans honward₄
  exact Nat.le_trans htidy.mark honward'.highest

/-- A string is laid down behind a jump, and its address and length go to the immediate register. -/
theorem str_lays (text : String) (info : Info) :
    Lays base false (expr (.str text info)) s false Anyhow := by
  rw [expr]
  refine (stringConstant_lays text).bind fun address t _ _ => .tidy fun htidy => ?_
  refine (setBytes_lays _ (fun i hi => ?_) fun h => by cases h).bind fun _ u _ _ =>
    .tidy fun htidy' => setBytes_lays _ (fun i hi => ?_) fun h => by cases h
  · exact slot_immediate htidy.highest (Nat.lt_trans hi (by decide))
  · rw [Nat.add_assoc]
    exact slot_immediate htidy'.highest (Nat.add_lt_add_left hi addressSize)

/-- Registers a variable is bound to exist, so they stand in front of the code. -/
theorem variable_lays (v : Variable) (info : Info) :
    Lays base false (expr (.variable v info)) s false Anyhow := by
  rw [expr]
  cases v.count with
  | some count => exact .throw
  | none =>
      refine .get ?_
      cases hregister : s.bindings.register? v with
      | some r =>
          refine .tidy fun htidy => copyRange_lays _ ?_ (fun i hi => ?_) fun h => by cases h
          · have hr := htidy.registers _ (mem_of_lookup hregister)
            have hle := register_mono hr (Nat.le_refl _)
            have hend : register registerCount + registerSize ≤ codeStart := by decide
            have hposition := htidy.position
            dsimp only at hle
            omega
          · exact slot_immediate htidy.highest hi
      | none => exact .throw

/-- The word with the address stands behind a jump over it. -/
theorem labelUse_lays (use : LabelUse) (info : Info) :
    Lays base false (expr (.label use info)) s false Anyhow := by
  rw [expr]
  cases use.target with
  | none => exact .throw
  | some label =>
      refine (jumpOver_lays (by simp [Piece.isInstruction])).bind fun address t _ hover =>
        .tidy fun htidy => ?_
      refine (copyRange_lays addressSize hover.1 (fun i hi => ?_)
        fun h => by cases h).bind fun _ u _ _ =>
        clearFrom_lays fun h => by cases h
      exact slot_immediate htidy.highest (Nat.lt_trans hi (by decide))

/-- Of the operators only a logical not ends in a test, which is forgotten here. -/
theorem unary_lays (op : UnaryOp) {operand : Expr} (info : Info)
    (hoperand : ∀ {s : State}, Lays base false (expr operand) s false Anyhow) :
    Lays base false (expr (.unary op operand info)) s false Anyhow := by
  cases op with
  | plus =>
      rw [expr]
      exact hoperand
  | not =>
      rw [expr]
      refine hoperand.bind fun _ t _ _ => (widthOf_lays _ _).bind fun width u _ _ => ?_
      exact (logicalNot_lays width info.site).forget
  | deref =>
      rw [expr]
      exact hoperand.bind fun _ t _ _ => load_lays.bind fun _ u _ _ =>
        clearFrom_lays fun h => by cases h
  | negate | complement =>
      rw [expr]
      exact .throw

/-- The left operand waits in a register of its own while the right one is computed. -/
theorem binary_lays (op : BinaryOp) {left right : Expr} (info : Info)
    (hleft : ∀ {s : State}, Lays base false (expr left) s false Anyhow)
    (hright : ∀ {s : State}, Lays base false (expr right) s false Anyhow) :
    Lays base false (expr (.binary op left right info)) s false Anyhow := by
  rw [expr]
  refine (widthOf_lays _ _).bind fun width t _ _ => ?_
  split
  · exact .throw
  split
  · exact .throw
  refine .tidy fun htidy => .get ?_
  refine hleft.bind fun _ u honward _ => ?_
  refine (allocate_lays 1 info.site).bind fun saved v honward₁ hsaved => .tidy fun htidy₁ => ?_
  have hslot : Slot v.highest (register saved) :=
    slot_register (i := 0) htidy₁.highest hsaved.1 (by decide)
  have himmediate : immediate < v.position := by
    have hposition := htidy₁.position
    have hlow : immediate < codeStart := by decide
    omega
  refine (copy_lays himmediate hslot fun h => by cases h).bind fun _ w honward₂ _ => ?_
  refine hright.bind fun _ w honward₃ _ => .tidy fun htidy₂ => ?_
  have hslot' := hslot.mono (honward₂.trans honward₃).highest htidy₂.highest
  have hlow := slot_immediate (i := 0) htidy₂.highest (by decide)
  refine (sumLookup_lays hslot' hlow hlow).bind fun _ w honward₄ _ => ?_
  refine (clearFrom_lays fun h => by cases h).bind fun _ w honward₅ _ => release_lays ?_
  have honward' := ((((honward.trans honward₁).trans honward₂).trans honward₃).trans
    honward₄).trans honward₅
  exact Nat.le_trans htidy.mark honward'.highest

/-- Expressions lay segments, by induction on the expression. -/
theorem expr_lays : ∀ (e : Expr) {s : State}, Lays base false (expr e) s false Anyhow
  | .int value info, s => by
      rw [expr]
      refine .tidy fun htidy => setBytes_lays _ (fun i hi => ?_) fun h => by cases h
      exact slot_immediate htidy.highest hi
  | .str text info, s => str_lays text info
  | .variable v info, s => variable_lays v info
  | .label use info, s => labelUse_lays use info
  | .cast operand info, s => by
      rw [expr]
      refine (expr_lays operand).bind fun _ t _ _ => ?_
      refine (widthOf_lays _ _).bind fun width u _ _ => ?_
      split
      · exact clearFrom_lays fun h => by cases h
      · exact .pure trivial
  | .unary op operand info, s => unary_lays op info (expr_lays operand)
  | .binary op left right info, s => binary_lays op info (expr_lays left) (expr_lays right)
  | .index base indices info, s => by
      rw [expr]
      exact .throw

end Expressions

end Emit

end ByteJump
