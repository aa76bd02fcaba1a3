import ByteJump.Proofs.Emit.Inside
import ByteJump.Proofs.Emit.Rules
import ByteJump.Proofs.Emit.Tame
import ByteJump.Proofs.Run.Legs
import ByteJump.Proofs.Run.Points

set_option autoImplicit false

/-!
# Code that flows

As it is laid down, an instruction goes on behind itself and the data it leads over, at a point, or at
an address that is zero until it is copied in.  Points and the entry are places where instructions are
expected.  So whoever follows the instructions from one of these places stays in the code.

Raw words are the exception: they stand where an instruction is expected.

`Flows start pieces` says how control may pass through a row of pieces: each instruction goes on
behind itself, behind the data that follows it, at a point, or at an address that is not known
yet; and no data is run into.  A `Landing` is an address between two such instructions.  `Smooth`
carries both through the emission: code that flows is added, and points and the entry are placed
at landings.  By `Trace.flowsOn` this holds of whole programs, and whoever follows successors
stays on instructions.
-/

namespace ByteJump

open Memory

namespace Assembly

/-! ## Instructions and the data behind them -/

/-- Where an instruction with data behind it may go on: behind the data, at a point, or at an address
that is not known yet. -/
inductive Successor (behind : Nat) : Word → Prop
  | behind : Successor behind (.known behind)
  | point {role : String} {serial : Nat} {site : Option Location} :
      Successor behind (.address (.point role serial) site)
  | unknown : Successor behind (.known 0)

/-- The pieces that are laid down at an address are instructions, each with data behind it, and go on
one from the other. -/
inductive Flows : Nat → List Piece → Prop
  | nil {start : Nat} : Flows start []
  | cons {start source destination : Nat} {next : Word} {data pieces : List Piece}
      (hnext : Successor (start + instructionSize + size data) next)
      (rest : Flows (start + instructionSize + size data) pieces) :
      Flows start (.instruction source destination next :: (data ++ pieces))

section Flows

variable {start : Nat} {pieces more : List Piece}

/-- The second row starts where the first one ends. -/
theorem Flows.append (h : Flows start pieces) (h' : Flows (start + size pieces) more) :
    Flows start (pieces ++ more) := by
  induction h with
  | nil => exact h'
  | cons hnext _ ih =>
      rw [List.cons_append, List.append_assoc]
      refine .cons hnext (ih ?_)
      rwa [size_cons, size_append, Piece.size, ← Nat.add_assoc, ← Nat.add_assoc] at h'

/-- A jump over data. -/
theorem flows_over (start : Nat) (data : List Piece) :
    Flows start (.instruction 0 0 (.known (start + instructionSize + size data)) :: data) := by
  have hflows : Flows start (.instruction 0 0 (.known (start + instructionSize + size data)) ::
    (data ++ [])) := .cons .behind .nil
  rwa [List.append_nil] at hflows

/-- An instruction in front of others. -/
theorem Flows.instruction {source destination : Nat} {next : Word}
    (hnext : Successor (start + instructionSize) next) (h : Flows (start + instructionSize) pieces) :
    Flows start (.instruction source destination next :: pieces) :=
  show Flows start (.instruction source destination next :: ([] ++ pieces)) from .cons hnext h

theorem flows_instruction {source destination : Nat} {next : Word}
    (hnext : Successor (start + instructionSize) next) :
    Flows start [.instruction source destination next] := .instruction hnext .nil

/-- Each copy goes on at the next one. -/
theorem flows_patchPieces (target : Nat) : ∀ (fields : List (Nat × Nat)) (start : Nat),
    Flows start (patchPieces target start fields)
  | [], _ => .nil
  | (_, _) :: fields, _ => .instruction .behind (flows_patchPieces target fields _)

theorem flows_patchedPieces (start : Nat) (fields : List (Nat × Nat)) (source destination : Nat) :
    Flows start (patchedPieces start fields source destination) := by
  refine (flows_patchPieces _ fields start).append ?_
  rw [size_patchPieces]
  exact flows_instruction .behind

theorem flows_selectPieces (table jump : Nat) : ∀ (count start i : Nat),
    Flows start (selectPieces table jump start count i)
  | 0, _, _ => .nil
  | count + 1, start, i => by
      have hselect : Flows start (selectPiece table jump start i) := by
        refine (flows_patchedPieces _ _ _ _).append ?_
        rw [size_patchedPieces]
        exact flows_instruction .behind
      refine hselect.append ?_
      rw [size_selectPiece]
      exact flows_selectPieces table jump count _ (i + 1)

/-- The last instruction of a choice is the jump whose successor is copied in. -/
theorem flows_choicePieces (table start : Nat) : Flows start (choicePieces table start) :=
  (flows_selectPieces table _ addressSize start 0).append (flows_instruction .unknown)

end Flows

/-! ## Places in code -/

/-- At the address an instruction is expected. -/
def Landing (pieces : List Piece) (a : Nat) : Prop :=
  ∃ before behind, pieces = before ++ behind ∧ a = codeStart + size before ∧ Flows a behind

section Landing

variable {pieces more : List Piece} {a : Nat}

/-- Behind all code the next instruction is expected. -/
theorem landing_end (pieces : List Piece) : Landing pieces (codeStart + size pieces) :=
  ⟨pieces, [], (List.append_nil _).symm, rfl, .nil⟩

/-- The first instruction is expected where the code starts. -/
theorem Flows.landing (h : Flows codeStart pieces) : Landing pieces codeStart :=
  ⟨[], pieces, rfl, rfl, h⟩

/-- A landing stays one when code is added that flows. -/
theorem Landing.append (h : Landing pieces a) (hmore : Flows (codeStart + size pieces) more) :
    Landing (pieces ++ more) a := by
  obtain ⟨before, behind, rfl, rfl, hflows⟩ := h
  rw [size_append, ← Nat.add_assoc] at hmore
  exact ⟨before, behind ++ more, List.append_assoc _ _ _, rfl, hflows.append hmore⟩

/-- A landing is not behind the end of the code. -/
theorem Landing.le (h : Landing pieces a) : a ≤ codeStart + size pieces := by
  obtain ⟨before, behind, rfl, rfl, -⟩ := h
  rw [size_append]
  omega

/-- What stands there is an instruction, if anything does, and it may go on where another one is
expected. -/
theorem Landing.onward (h : Landing pieces a) : a = codeStart + size pieces ∨
    ∃ before source destination next rest behind,
      pieces = before ++ .instruction source destination next :: rest ∧
      a = codeStart + size before ∧ Successor behind next ∧ Landing pieces behind := by
  obtain ⟨before, rest, rfl, rfl, hflows⟩ := h
  cases hflows with
  | nil => exact .inl (by rw [List.append_nil])
  | @cons _ source destination next data pieces hnext hrest =>
      refine .inr ⟨before, source, destination, next, _, _, rfl, rfl, hnext,
        before ++ .instruction source destination next :: data, pieces, by simp, ?_, hrest⟩
      rw [size_append, size_cons, Piece.size]
      omega

end Landing

end Assembly

namespace Emit

open Assembly

variable {α β : Type}

/-! ## States -/

/-- The code flows, and points and the entry are places where instructions are expected. -/
structure Flowing (s : State) : Prop where
  position : s.position = codeStart + size s.pieces.toList
  flows : Flows codeStart s.pieces.toList
  points : ∀ x ∈ s.points, Landing s.pieces.toList x.2
  entry : ∀ a, s.entry = some a → Landing s.pieces.toList a

/-- Code is added that flows on from the code there is, if all of it fits into memory. -/
structure FlowsOn (s t : State) : Prop where
  position : s.position ≤ t.position
  flowing : t.position ≤ addressSpace → Flowing s → Flowing t

section States

variable {s t u : State}

theorem flowing_start (b : Bindings) : Flowing (.start b) := ⟨rfl, .nil, nofun, nofun⟩

theorem FlowsOn.refl (s : State) : FlowsOn s s := ⟨Nat.le_refl _, fun _ h => h⟩

/-- What flows behind what flows. -/
theorem FlowsOn.trans (h : FlowsOn s t) (h' : FlowsOn t u) : FlowsOn s u where
  position := Nat.le_trans h.position h'.position
  flowing hfits hs := h'.flowing hfits (h.flowing (Nat.le_trans h'.position hfits) hs)

/-- Neither code nor points nor the entry have changed. -/
theorem FlowsOn.same (hpieces : t.pieces = s.pieces) (hposition : t.position = s.position)
    (hpoints : t.points = s.points) (hentry : t.entry = s.entry) : FlowsOn s t where
  position := Nat.le_of_eq hposition.symm
  flowing _ h := by
    refine ⟨?_, ?_, ?_, ?_⟩
    · rw [hposition, hpieces, h.position]
    · rw [hpieces]
      exact h.flows
    · rw [hpieces, hpoints]
      exact h.points
    · rw [hpieces, hentry]
      exact h.entry

theorem FlowsOn.emit {more : List Piece}
    (hmore : s.position + size more ≤ addressSpace → Flows s.position more) :
    FlowsOn s (s.emit more) where
  position := Nat.le_add_right _ _
  flowing hfits h := by
    have hflows : Flows (codeStart + size s.pieces.toList) more := h.position ▸ hmore hfits
    refine ⟨?_, ?_, fun x hx => ?_, fun a ha => ?_⟩ <;> rw [toList_emit]
    · rw [State.position_emit, h.position, size_append, Nat.add_assoc]
    · exact h.flows.append hflows
    · exact (h.points x hx).append hflows
    · exact (h.entry a ha).append hflows

/-- The next instruction is expected here. -/
theorem Flowing.landing (h : Flowing s) : Landing s.pieces.toList s.position :=
  h.position ▸ landing_end _

theorem flowsOn_label (s : State) (l : Label) : FlowsOn s (s.label l) where
  position := Nat.le_refl _
  flowing _ h := by
    refine ⟨h.position, h.flows, h.points, fun a ha => ?_⟩
    unfold State.label at ha
    dsimp only at ha
    split at ha
    · cases hentry : s.entry with
      | some b => exact h.entry a (by rw [hentry] at ha ⊢; exact ha)
      | none =>
          rw [hentry] at ha
          cases ha
          exact h.landing
    · exact h.entry a ha

/-- Labels are placed where the code ends so far, and that is a landing. -/
theorem flowsOn_labelAll (labels : List Label) : ∀ s : State, FlowsOn s (s.labelAll labels) := by
  induction labels with
  | nil => exact .refl
  | cons l labels ih => exact fun s => (flowsOn_label s l).trans (ih _)

/-- A point is placed where the code ends so far. -/
theorem flowsOn_pointed (s : State) (serial : Nat) : FlowsOn s (s.pointed serial) where
  position := Nat.le_refl _
  flowing _ h := ⟨h.position, h.flows, List.forall_mem_cons.mpr ⟨h.landing, h.points⟩, h.entry⟩

end States

/-! ## Rules

Only runs that end well are looked at, as code of a program that fails is never run. -/

/-- What is emitted flows on, wherever it is emitted; a fault is not looked at. -/
structure Smooth (x : Emitter α) : Prop where
  run : ∀ s a t, x s = .ok a t → FlowsOn s t

section Rules

theorem Smooth.pure {a : α} : Smooth (Pure.pure a : Emitter α) :=
  ⟨fun s b t hrun => by cases hrun; exact .refl s⟩

theorem Smooth.throw {e : Fault} : Smooth (MonadExcept.throw e : Emitter α) :=
  ⟨fun s a t hrun => by cases hrun⟩

/-- Both parts flow on. -/
theorem Smooth.bind {x : Emitter β} {f : β → Emitter α} (h : Smooth x) (hf : ∀ b, Smooth (f b)) :
    Smooth (x >>= f) := by
  refine ⟨fun s a t hrun => ?_⟩
  obtain ⟨b, u, hx, hfb⟩ := ok_bind hrun
  exact (h.run s b u hx).trans ((hf b).run u a t hfb)

theorem Smooth.get {f : State → Emitter α} (h : ∀ s, Smooth (f s)) :
    Smooth (MonadState.get >>= f) := ⟨fun s => (h s).run s⟩

theorem Smooth.position {f : Nat → Emitter α} (h : ∀ n, Smooth (f n)) :
    Smooth (Emit.position >>= f) := ⟨fun s => (h s.position).run s⟩

/-- Where it is known what a computation does, its pieces can be looked at. -/
theorem Smooth.of_run {x : Emitter α} {a : State → α} {t : State → State}
    (h : ∀ s, x s = .ok (a s) (t s)) (ht : ∀ s, FlowsOn s (t s)) : Smooth x := by
  refine ⟨fun s b u hrun => ?_⟩
  rw [h] at hrun
  cases hrun
  exact ht s

/-- Code that flows is laid down. -/
theorem Smooth.of_emit {x : Emitter α} {a : State → α} {more : State → List Piece}
    (h : ∀ s, x s = .ok (a s) (s.emit (more s))) (hmore : ∀ s, Flows s.position (more s)) :
    Smooth x := .of_run h fun s => .emit fun _ => hmore s

theorem Smooth.update {f : State → State} (h : ∀ s, FlowsOn s (f s)) :
    Smooth (modify f : Emitter PUnit) := .of_run (fun _ => rfl) h

end Rules

/-! ## Primitives -/

/-- An instruction that goes on at an address that is not known yet. -/
theorem open_smooth (source destination : Nat) : Smooth (instruction source destination 0) :=
  .of_emit (run_instruction source destination 0) fun _ => flows_instruction .unknown

theorem copy_smooth (source destination : Nat) : Smooth (copy source destination) :=
  .of_emit (run_copy source destination) fun _ => flows_instruction .behind

/-- The jump goes on behind the data. -/
theorem jumpOver_smooth (data : List Piece) : Smooth (jumpOver data) :=
  .of_emit (run_jumpOver data) fun _ => flows_over _ data

theorem patches_smooth (target : Nat) (fields : List (Nat × Nat)) : Smooth (patches target fields) :=
  .of_emit (run_patches target fields) fun _ => flows_patchPieces target fields _

theorem patched_smooth (fields : List (Nat × Nat)) (source destination : Nat) :
    Smooth (patched fields source destination) :=
  .of_emit (run_patched fields source destination) fun _ => flows_patchedPieces _ _ _ _

/-- A point is a successor that will be a landing. -/
theorem jumpTo_smooth (role : String) (serial : Nat) : Smooth (jumpTo (.point role serial)) :=
  .of_emit (run_push _) fun _ => flows_instruction .point

/-- A constant is data behind a jump over it. -/
theorem byteConstant_smooth (value : UInt8) : Smooth (byteConstant value) := by
  unfold byteConstant
  refine .get fun s => ?_
  cases s.byteConstants.lookup value with
  | some address => exact .pure
  | none =>
      refine (jumpOver_smooth _).bind fun _ => Smooth.bind (.update fun _ => ?_) fun _ => .pure
      exact .same rfl rfl rfl rfl

theorem stringConstant_smooth (text : String) : Smooth (stringConstant text) := by
  unfold stringConstant
  refine .get fun s => ?_
  cases s.strings.lookup text with
  | some address => exact .pure
  | none =>
      refine (jumpOver_smooth _).bind fun _ => Smooth.bind (.update fun _ => ?_) fun _ => .pure
      exact .same rfl rfl rfl rfl

theorem allocate_smooth (count : Nat) (site : Location) : Smooth (allocate count site) := by
  refine .get fun s => ?_
  dsimp only
  split
  · refine Smooth.bind (.update fun _ => ?_) fun _ => .pure
    exact .same rfl rfl rfl rfl
  · exact .throw

theorem release_smooth (mark : Nat) : Smooth (release mark) := .update fun _ => .same rfl rfl rfl rfl

theorem bind_smooth (v : Variable) (register : Nat) :
    Smooth (modify fun s => { s with bindings := s.bindings.bind v register } : Emitter PUnit) :=
  .update fun _ => .same rfl rfl rfl rfl

theorem alignTo_smooth (align : Nat) : Smooth (alignTo align) := by
  refine .position fun here => ?_
  split
  · exact (jumpOver_smooth _).bind fun _ => .pure
  · exact .pure

theorem smooth_rules : Rules (fun _ => True) Smooth where
  inherited := inherited_true
  pure := .pure
  bind := .bind
  mark h _ := .get h
  copy := copy_smooth
  patched := patched_smooth
  byteConstant := byteConstant_smooth
  stringConstant := stringConstant_smooth
  release := release_smooth
  allocate _ := allocate_smooth 1 _
  refuse _ _ := .throw
  register {v _ _} _ h := .get fun s => by
    cases s.bindings.register? v with
    | some r => exact h r
    | none => exact .throw
  word _ _ := jumpOver_smooth _
  unresolved _ _ := .throw

theorem expr_smooth (e : Expr) : Smooth (expr e) := smooth_rules.expr trivial

/-! ## Parts of statements -/

/-- The jump over a table goes where the table ends, as long as this is an address. -/
theorem flows_choosePieces {taken otherwise : Target} {start : Nat}
    (hfits : start + size (choosePieces taken otherwise start) ≤ addressSpace) :
    Flows start (choosePieces taken otherwise start) := by
  rw [choosePieces, size_append, size_choicePieces] at hfits
  simp only [addressSize, instructionSize] at hfits
  refine Flows.append ?_ (flows_choicePieces _ _)
  rw [Linked.alignedPieces_eq (by simp only [instructionSize]; omega)]
  exact flows_over start _

/-- The table is data, and the choice ends with an open jump. -/
theorem branch_smooth (condition : Expr) (taken otherwise : Target) :
    Smooth (branch condition taken otherwise) :=
  smooth_rules.branch trivial
    (.of_run (run_chooseBetween taken otherwise) fun _ => .emit flows_choosePieces)

/-- The successor is copied into the last instruction. -/
theorem goto_smooth (target : Expr) : Smooth (action (.goto target)) := by
  rw [action]
  refine (expr_smooth target).bind fun _ => ?_
  exact Smooth.bind (x := behindPatches _) (.position fun _ => .pure) fun _ =>
    (patches_smooth _ _).bind fun _ => open_smooth 0 0

/-- A statement with no other inside, but for raw words. -/
theorem action_smooth {act : Action} (hsimple : isSimple act = true)
    (hwords : ∀ values, act ≠ .words values) : Smooth (action act) := by
  cases act with
  | nothing =>
      rw [action]
      exact .pure
  | evaluate value =>
      rw [action]
      exact expr_smooth value
  | goto target => exact goto_smooth target
  | define v value =>
      rw [action]
      exact (expr_smooth value).bind fun _ => (allocate_smooth 1 _).bind fun r =>
        (bind_smooth v r).bind fun _ => smooth_rules.copyRange _ _ _
  | reserve v =>
      rw [action]
      cases v.count with
      | some count => exact (allocate_smooth _ _).bind fun r => bind_smooth v r
      | none => exact .throw
  | assign target value =>
      rw [action]
      exact smooth_rules.store trivial trivial
  | words values => exact absurd rfl (hwords values)
  | place _ | block _ | branch _ _ _ | loop _ _ _ => cases hsimple

/-! ## Traces -/

/-- All jumps among the items go to points. -/
def Pointed (items : List Item) : Prop :=
  ∀ target, .glue (.jump target) ∈ items → ∃ role serial, target = .point role serial

theorem Pointed.tail {item : Item} {items : List Item} (h : Pointed (item :: items)) :
    Pointed items := fun target htarget => h target (List.mem_cons_of_mem _ htarget)

theorem pointed_map (ss : List Stmt) : Pointed (ss.map .stmt) := by simp [Pointed]

/-- Jumps between the parts of a statement go to its own points. -/
theorem pointed_of_parts {serial : Nat} {act : Action} {items : List Item}
    (h : parts serial act = some items) : Pointed items := by
  cases act with
  | branch condition taken otherwise => cases otherwise <;> cases h <;> simp [Pointed]
  | loop condition body bodyFirst => cases bodyFirst <;> cases h <;> simp [Pointed]
  | nothing | place _ | evaluate _ | goto _ | define _ _ | reserve _ | assign _ _ | block _
  | words _ => cases h

/-- Each piece of code between statements flows. -/
theorem glue_smooth {code : Glue} (hjump : ∀ target, code = .jump target →
    ∃ role serial, target = .point role serial) : Smooth code.emit := by
  cases code with
  | point role => exact .of_run (fun _ => rfl) fun _ => .same rfl rfl rfl rfl
  | branch condition taken otherwise => exact branch_smooth condition taken otherwise
  | jump target =>
      obtain ⟨role, serial, rfl⟩ := hjump target rfl
      exact jumpTo_smooth role serial
  | place role serial => exact .of_run (fun _ => rfl) fun s => flowsOn_pointed s serial

/-- Without raw words a trace is one of code that flows on. -/
theorem Trace.flowsOn {depth : Nat} {scope : List Variable} {items : List Item} {s t : State}
    {log : List Event} (h : Trace depth scope items s log t) (hjumps : Pointed items)
    (hwords : ∀ st, Starts log st → ∀ values, st.action ≠ .words values) : FlowsOn s t := by
  induction h with
  | done => exact .refl _
  | glue hrun _ ih =>
      have hcode := glue_smooth fun target htarget =>
        hjumps target (htarget ▸ List.mem_cons_self)
      refine (hcode.run _ _ _ hrun).trans (ih hjumps.tail fun st hst => hwords st ?_)
      simp [hst]
  | @simple _ _ labels act site _ s _ _ _ hsimple hrun _ ih =>
      have haction := action_smooth hsimple (hwords (.mk labels act site) (by simp))
      refine (flowsOn_labelAll labels s).trans ((haction.run _ _ _ hrun).trans ?_)
      exact ih hjumps.tail fun st hst => hwords st (by simp [hst])
  | compound hparts _ _ ih ih' =>
      have hinner := ih (pointed_of_parts hparts) fun st hst => hwords st (by simp [hst])
      have hrest := ih' hjumps.tail fun st hst => hwords st (by simp [hst])
      exact (flowsOn_labelAll _ _).trans (hinner.trans hrest)
  | @block _ _ _ _ _ _ s t _ _ _ _ _ ih ih' =>
      have hreleased : FlowsOn t (t.released s.mark) := .same rfl rfl rfl rfl
      have hinner := ih (pointed_map _) fun st hst => hwords st (by simp [hst])
      have hrest := ih' hjumps.tail fun st hst => hwords st (by simp [hst])
      exact (flowsOn_labelAll _ _).trans (hinner.trans (hreleased.trans hrest))
  | skip _ _ ih =>
      exact (flowsOn_labelAll _ _).trans (ih hjumps.tail fun st hst => hwords st (by simp [hst]))
  | @file _ _ labels file _ _ s _ _ _ _ _ _ halign _ _ ih ih' =>
      have hreach : FlowsOn (s.labelAll labels) ((s.labelAll labels).reach file) := by
        unfold State.reach
        split
        · exact .refl _
        · exact .same rfl rfl rfl rfl
      have hinner := ih (pointed_map _) fun st hst => hwords st (by simp [hst])
      have hrest := ih' hjumps.tail fun st hst => hwords st (by simp [hst])
      refine (flowsOn_labelAll labels s).trans (hreach.trans ?_)
      exact ((alignTo_smooth _).run _ _ _ halign).trans (hinner.trans hrest)

end Emit

end ByteJump
