import ByteJump.Proofs.Emit.Rules
import ByteJump.Proofs.Proper

set_option autoImplicit false

/-!
# Plain code

Emitting an expression only adds pieces: labels, points, registers of variables and placed files
stay as they are.  It ends with one of the few faults that generating code may end with, as long as
every variable has a register and every use of a label a target.

Three things are followed through an expression at once: which faults it may end with, which
symbols its words refer to, and that nothing but the code has changed.  `Plain b among x` combines
them for a computation that runs where the bindings are `b`; `among` are the targets that words
may refer to.  `Ends` is the triple behind it, with the faults fixed once and for all.
-/

namespace ByteJump

/-- The fault is one that generating code may end with: something is not supported, or there are
too many registers, or a constant cannot be computed. -/
def Fault.isGenerated : Fault → Bool
  | .unimplemented .. | .unsupportedTarget .. | .outOfRegisters .. | .notConstant ..
  | .divisionByZero .. => true
  | _ => false

namespace Emit

open Assembly Memory

variable {α β : Type}

/-! ## Ends of emitting -/

/-- Emitting ends with `post` for the value and the state, or with a fault that generating code may
end with. -/
def Ends (x : Emitter α) (post : α → State → Prop) (s : State) : Prop :=
  match x s with
  | .ok a t => post a t
  | .error e _ => e.isGenerated = true

section Ends

variable {post : α → State → Prop} {s : State}

theorem Ends.pure {a : α} (h : post a s) : Ends (Pure.pure a) post s := h

/-- The fault is one that generating may end with. -/
theorem Ends.throw {e : Fault} (h : e.isGenerated = true) :
    Ends (MonadExcept.throw e : Emitter α) post s := h

theorem Ends.get {f : State → Emitter α} (h : Ends (f s) post s) :
    Ends (MonadState.get >>= f) post s := h

theorem Ends.update {f : State → State} {post : PUnit → State → Prop} (h : post ⟨⟩ (f s)) :
    Ends (modify f) post s := h

/-- The second part is looked at where the first one ends. -/
theorem Ends.bind {x : Emitter β} {f : β → Emitter α}
    (h : Ends x (fun b t => Ends (f b) post t) s) : Ends (x >>= f) post s := by
  unfold Ends at h ⊢
  rw [show (x >>= f) s = _ from EStateM.run_bind x f, EStateM.run]
  cases hx : x s with
  | ok b t =>
      rw [hx] at h
      exact h
  | error e t =>
      rw [hx] at h
      exact h

theorem Ends.mono {post' : α → State → Prop} {x : Emitter α} (h : Ends x post' s)
    (hpost : ∀ a t, post' a t → post a t) : Ends x post s := by
  unfold Ends at h ⊢
  split
  · rename_i hx
    rw [hx] at h
    exact hpost _ _ h
  · rename_i hx
    rw [hx] at h
    exact h

end Ends

/-! ## Symbols -/

/-- Every symbol in a word is one of the targets `among`. -/
def SymbolsIn (among : Target → Prop) : Word → Prop
  | .known _ => True
  | .address target _ => among target
  | .constant value => value.LabelsIn fun label => among (.label label)

/-- Every symbol in a piece is one of the targets `among`. -/
def PieceIn (among : Target → Prop) (piece : Piece) : Prop :=
  ∀ word, piece.word? = some word → SymbolsIn among word

/-- More targets are allowed. -/
theorem PieceIn.mono {among among' : Target → Prop} (h : ∀ target, among target → among' target)
    {piece : Piece} (hpiece : PieceIn among piece) : PieceIn among' piece := by
  intro word hword
  have hsymbols := hpiece word hword
  cases word with
  | known value => trivial
  | address target site => exact h target hsymbols
  | constant value => exact Expr.LabelsIn.mono (fun label => h (.label label)) hsymbols

theorem pieceIn_known {among : Target → Prop} (source destination next : Nat) :
    PieceIn among (.instruction source destination (.known next)) := by
  rintro _ ⟨⟩
  trivial

theorem pieceIn_bytes {among : Target → Prop} (data : List UInt8) :
    PieceIn among (.bytes data) := by
  rintro _ ⟨⟩

/-- Pieces were added, and their symbols are among the given targets. -/
def AddsIn (among : Target → Prop) (s t : State) : Prop :=
  ∃ more, t.pieces.toList = s.pieces.toList ++ more ∧ (∀ piece ∈ more, PieceIn among piece) ∧
    t.position = s.position + Assembly.size more

theorem AddsIn.refl (among : Target → Prop) (s : State) : AddsIn among s s :=
  ⟨[], by simp, by simp, rfl⟩

/-- All that was added refers to targets that are allowed. -/
theorem AddsIn.trans {among : Target → Prop} {s t u : State} (h : AddsIn among s t)
    (h' : AddsIn among t u) : AddsIn among s u := by
  obtain ⟨more, hpieces, hin, hposition⟩ := h
  obtain ⟨more', hpieces', hin', hposition'⟩ := h'
  refine ⟨more ++ more', by rw [hpieces', hpieces, List.append_assoc], ?_, ?_⟩
  · intro piece hpiece
    exact (List.mem_append.mp hpiece).elim (hin piece) (hin' piece)
  · rw [hposition', hposition, Assembly.size_append, Nat.add_assoc]

/-! ## Plain emitting -/

/-- Only pieces were added. -/
structure Quiet (among : Target → Prop) (s t : State) : Prop where
  code : AddsIn among s t
  bindings : t.bindings = s.bindings
  placed : t.placed = s.placed
  points : t.points = s.points

/-- Nothing but the code has changed in either part. -/
theorem Quiet.trans {among : Target → Prop} {s t u : State} (h : Quiet among s t)
    (h' : Quiet among t u) : Quiet among s u :=
  ⟨h.code.trans h'.code, h'.bindings.trans h.bindings, h'.placed.trans h.placed,
    h'.points.trans h.points⟩

/-- Where variables and labels have the given bindings, only pieces are added. -/
structure Plain (b : Bindings) (among : Target → Prop) (x : Emitter α) : Prop where
  ends : ∀ s, s.bindings = b → Ends x (fun _ t => Quiet among s t) s

variable {b : Bindings} {among : Target → Prop}

theorem Plain.pure {a : α} : Plain b among (Pure.pure a) :=
  ⟨fun s _ => Ends.pure ⟨.refl _ s, rfl, rfl, rfl⟩⟩

theorem Plain.throw {e : Fault} (h : e.isGenerated = true) :
    Plain b among (MonadExcept.throw e : Emitter α) := ⟨fun _ _ => Ends.throw h⟩

/-- The bindings are the same in front of the second part. -/
theorem Plain.bind {x : Emitter β} {f : β → Emitter α} (h : Plain b among x)
    (hf : ∀ a, Plain b among (f a)) : Plain b among (x >>= f) := by
  refine ⟨fun s hs => Ends.bind ((h.ends s hs).mono fun a t ht => ?_)⟩
  exact ((hf a).ends t (ht.bindings.trans hs)).mono fun _ _ hu => ht.trans hu

theorem Plain.get {f : State → Emitter α} (h : ∀ s, s.bindings = b → Plain b among (f s)) :
    Plain b among (MonadState.get >>= f) :=
  ⟨fun s hs => Ends.get ((h s hs).ends s hs)⟩

/-- A part of the state is changed that plain code may change. -/
theorem Plain.update {f : State → State}
    (h : ∀ s, (f s).pieces = s.pieces ∧ (f s).position = s.position ∧
      (f s).bindings = s.bindings ∧ (f s).placed = s.placed ∧ (f s).points = s.points) :
    Plain b among (modify f) := by
  refine ⟨fun s hs => ?_⟩
  obtain ⟨hpieces, hposition, hbindings, hplaced, hpoints⟩ := h s
  refine Ends.update ⟨⟨[], ?_, by simp, hposition⟩, hbindings, hplaced, hpoints⟩
  show (f s).pieces.toList = _
  simp [hpieces]

/-- One more piece whose symbols are among the given targets. -/
theorem push_plain {piece : Piece} (h : PieceIn among piece) : Plain b among (push piece) := by
  refine ⟨fun s hs => Ends.update ⟨⟨[piece], ?_, ?_, ?_⟩, rfl, rfl, rfl⟩⟩
  · exact Array.toList_push
  · rintro _ hpiece
    obtain rfl := List.mem_singleton.mp hpiece
    exact h
  · show s.position + piece.size = _
    simp [Assembly.size]

theorem forM_push_plain : ∀ {pieces : List Piece}, (∀ piece ∈ pieces, PieceIn among piece) →
    Plain b among (pieces.forM push)
  | [], _ => Plain.pure
  | piece :: pieces, h => by
      show Plain b among (push piece >>= fun _ => pieces.forM push)
      refine (push_plain (h piece List.mem_cons_self)).bind fun _ => ?_
      exact forM_push_plain fun other hother => h other (List.mem_cons_of_mem _ hother)

theorem position_plain {f : Nat → Emitter α} (h : ∀ n, Plain b among (f n)) :
    Plain b among (position >>= f) :=
  Plain.bind (Plain.get fun _ _ => Plain.pure) h

theorem instruction_plain (source destination next : Nat) :
    Plain b among (instruction source destination next) :=
  push_plain (pieceIn_known source destination next)

theorem copy_plain (source destination : Nat) : Plain b among (copy source destination) :=
  position_plain fun _ => instruction_plain _ _ _

/-- The jump has a known successor. -/
theorem jumpOver_plain {pieces : List Piece} (h : ∀ piece ∈ pieces, PieceIn among piece) :
    Plain b among (jumpOver pieces) :=
  position_plain fun _ => (instruction_plain _ _ _).bind fun _ =>
    (forM_push_plain h).bind fun _ => Plain.pure

theorem jumpOverAligned_plain (align : Nat) {pieces : List Piece}
    (h : ∀ piece ∈ pieces, PieceIn among piece) : Plain b among (jumpOverAligned align pieces) :=
  position_plain fun _ => (instruction_plain _ _ _).bind fun _ =>
    (push_plain (pieceIn_bytes _)).bind fun _ => (forM_push_plain h).bind fun _ => Plain.pure

theorem bytes_in (data : List UInt8) : ∀ piece ∈ [Piece.bytes data], PieceIn among piece := by
  intro piece hpiece
  obtain rfl := List.mem_singleton.mp hpiece
  exact pieceIn_bytes data

/-! ## Constants and patches

None of these refers to a symbol. -/

/-- The byte is remembered in the pool. -/
theorem byteConstant_plain (value : UInt8) : Plain b among (byteConstant value) := by
  unfold byteConstant
  refine Plain.get fun s _ => ?_
  cases s.byteConstants.lookup value with
  | some address => exact Plain.pure
  | none =>
      exact (jumpOver_plain (bytes_in _)).bind fun _ =>
        (Plain.update (by simp)).bind fun _ => Plain.pure

theorem stringConstant_plain (text : String) : Plain b among (stringConstant text) := by
  unfold stringConstant
  refine Plain.get fun s _ => ?_
  cases s.strings.lookup text with
  | some address => exact Plain.pure
  | none =>
      exact (jumpOver_plain (bytes_in _)).bind fun _ =>
        (Plain.update (by simp)).bind fun _ => Plain.pure

theorem patches_plain (target : Nat) : ∀ fields, Plain b among (patches target fields)
  | [] => Plain.pure
  | (source, offset) :: fields => by
      rw [patches]
      exact (copy_plain _ _).bind fun _ => patches_plain target fields

theorem behindPatches_plain {f : Nat → Emitter α} (count : Nat) (h : ∀ n, Plain b among (f n)) :
    Plain b among (behindPatches count >>= f) :=
  Plain.bind (position_plain fun _ => Plain.pure) h

theorem patched_plain (fields : List (Nat × Nat)) (source destination : Nat) :
    Plain b among (patched fields source destination) :=
  behindPatches_plain _ fun _ => (patches_plain _ _).bind fun _ => instruction_plain _ _ _

/-- Running out of registers is a fault that generating may end with. -/
theorem allocate_plain (count : Nat) (site : Location) : Plain b among (allocate count site) := by
  unfold allocate
  refine Plain.get fun s _ => ?_
  dsimp only
  split
  · exact (Plain.update (by simp)).bind fun _ => Plain.pure
  · exact Plain.throw rfl

theorem release_plain (mark : Nat) : Plain b among (release mark) :=
  Plain.update (by simp)

/-! ## Expressions -/

/-- The variables of a proper expression have registers and its labels are among the given
targets. -/
theorem plain_rules : Rules (fun e => (e.Proper fun v => (b.registers.lookup v.id).isSome = true) ∧
    e.LabelsIn fun label => among (.label label)) fun x => Plain b among x where
  inherited :=
    ⟨fun h => h, fun h => ⟨h.1.2, h.2⟩, fun h => ⟨⟨h.1.1, h.2.1⟩, ⟨h.1.2, h.2.2⟩⟩⟩
  pure := .pure
  bind := .bind
  mark h _ := .get fun s _ => h s
  copy := copy_plain
  patched := patched_plain
  byteConstant := byteConstant_plain
  stringConstant := stringConstant_plain
  release := release_plain
  allocate _ := allocate_plain 1 _
  refuse _ h := by cases h <;> exact .throw rfl
  register {v _ _} hfit h := .get fun s hs => by
    obtain ⟨r, hr⟩ := Option.isSome_iff_exists.mp hfit.1
    have hregister : s.bindings.register? v = some r := by
      rw [hs]
      exact hr
    rw [hregister]
    exact h r
  word hfit htarget := by
    obtain ⟨label, hlabel, hamong⟩ := hfit.2
    refine jumpOver_plain fun piece hpiece => ?_
    obtain rfl := List.mem_singleton.mp hpiece
    rintro _ ⟨⟩
    obtain rfl := Option.some.inj (hlabel.symm.trans htarget)
    exact hamong
  unresolved hfit htarget := by
    obtain ⟨label, hlabel, -⟩ := hfit.2
    cases hlabel.symm.trans htarget

end Emit

end ByteJump
