import ByteJump.Proofs.Emit.Calm
import ByteJump.Proofs.Emit.Rules

set_option autoImplicit false

/-!
# Code that does not look back

Emitting an expression never looks at the pieces that were laid down before: the same code comes
behind any others.

The state holds all pieces that were laid down, but emission only appends to them.  `State.over`
exchanges the pieces of a state for others and leaves everything else as it is, and `Blind` says
that a run from the exchanged state ends as before, with the same code behind the other pieces.
It holds of all primitives, and of expressions by the common walk.
-/

namespace ByteJump

namespace Emit

open Assembly Memory

variable {α β : Type}

/-- The state with other pieces laid down before. -/
def State.over (s : State) (front : List Piece) : State := { s with pieces := front.toArray }

theorem State.pieces_over (s : State) (front : List Piece) : (s.over front).pieces.toList = front := by
  simp [State.over]

theorem State.position_over (s : State) (front : List Piece) :
    (s.over front).position = s.position := rfl

/-- What is added does not depend on what is there. -/
theorem State.emit_over (s : State) (front more : List Piece) :
    (s.over front).emit more = (s.emit more).over (front ++ more) := by
  simp [State.over, State.emit]

/-- Behind other pieces the same code is emitted. -/
structure Blind (x : Emitter α) : Prop where
  run : ∀ s a t, x s = .ok a t → ∃ more, t.pieces.toList = s.pieces.toList ++ more ∧
    ∀ front, x (s.over front) = .ok a (t.over (front ++ more))

/-! ## Rules

A state may be read, as long as its pieces are not looked at. -/

section Rules

theorem Blind.pure {a : α} : Blind (Pure.pure a : Emitter α) := by
  refine ⟨fun s b t hrun => ?_⟩
  cases hrun
  exact ⟨[], by simp, fun front => by rw [List.append_nil]; rfl⟩

theorem Blind.throw {e : Fault} : Blind (MonadExcept.throw e : Emitter α) :=
  ⟨fun _ _ _ hrun => nomatch hrun⟩

/-- Neither part looks back. -/
theorem Blind.bind {x : Emitter β} {f : β → Emitter α} (h : Blind x) (hf : ∀ b, Blind (f b)) :
    Blind (x >>= f) := by
  refine ⟨fun s a t hrun => ?_⟩
  obtain ⟨b, u, hx, hfb⟩ := ok_bind hrun
  obtain ⟨more, hmore, hfirst⟩ := h.run s b u hx
  obtain ⟨more', hmore', hrest⟩ := (hf b).run u a t hfb
  refine ⟨more ++ more', by rw [hmore', hmore, List.append_assoc], fun front => ?_⟩
  rw [run_bind (hfirst front), hrest, List.append_assoc]

/-- The state is looked at, but not the pieces in it. -/
theorem Blind.get {f : State → Emitter α} (h : ∀ s, Blind (f s))
    (hf : ∀ s front, f (s.over front) = f s) : Blind (MonadState.get >>= f) := by
  refine ⟨fun s a t hrun => ?_⟩
  obtain ⟨more, hmore, hrest⟩ := (h s).run s a t hrun
  refine ⟨more, hmore, fun front => ?_⟩
  show f (s.over front) (s.over front) = _
  rw [hf, hrest]

theorem Blind.update {f : State → State} (hpieces : ∀ s, (f s).pieces = s.pieces)
    (hf : ∀ s front, f (s.over front) = (f s).over front) : Blind (modify f : Emitter PUnit) := by
  refine ⟨fun s a t hrun => ?_⟩
  cases hrun
  refine ⟨[], by simp [hpieces], fun front => ?_⟩
  show EStateM.Result.ok _ (f (s.over front)) = _
  rw [hf, List.append_nil]

/-- Pieces are added that do not depend on those laid down before. -/
theorem Blind.of_run {x : Emitter α} {a : State → α} {more : State → List Piece}
    (h : ∀ s, x s = .ok (a s) (s.emit (more s))) (ha : ∀ s front, a (s.over front) = a s)
    (hmore : ∀ s front, more (s.over front) = more s) : Blind x := by
  refine ⟨fun s b t hrun => ?_⟩
  rw [h] at hrun
  cases hrun
  refine ⟨more s, toList_emit s _, fun front => ?_⟩
  rw [h, ha, hmore, State.emit_over]

end Rules

/-! ## Primitives -/

theorem copy_blind (source destination : Nat) : Blind (copy source destination) :=
  .of_run (run_copy source destination) (fun _ _ => rfl) fun _ _ => rfl

/-- The address is the position, which stays. -/
theorem jumpOver_blind (pieces : List Piece) : Blind (jumpOver pieces) :=
  .of_run (run_jumpOver pieces) (fun _ _ => rfl) fun _ _ => rfl

theorem patched_blind (fields : List (Nat × Nat)) (source destination : Nat) :
    Blind (patched fields source destination) :=
  .of_run (run_patched fields source destination) (fun _ _ => rfl) fun _ _ => rfl

/-- Whether the byte was placed before is a question to the pool. -/
theorem byteConstant_blind (value : UInt8) : Blind (byteConstant value) := by
  refine .get (fun s => ?_) fun _ _ => rfl
  cases s.byteConstants.lookup value with
  | some address => exact .pure
  | none =>
      refine (jumpOver_blind _).bind fun address => Blind.bind (.update ?_ ?_) fun _ => .pure
      · exact fun _ => rfl
      · exact fun _ _ => rfl

theorem stringConstant_blind (text : String) : Blind (stringConstant text) := by
  refine .get (fun s => ?_) fun _ _ => rfl
  cases s.strings.lookup text with
  | some address => exact .pure
  | none =>
      refine (jumpOver_blind _).bind fun address => Blind.bind (.update ?_ ?_) fun _ => .pure
      · exact fun _ => rfl
      · exact fun _ _ => rfl

theorem allocate_blind (count : Nat) (site : Location) : Blind (allocate count site) := by
  refine .get (fun s => ?_) fun _ _ => rfl
  dsimp only
  split
  · refine Blind.bind (.update ?_ ?_) fun _ => .pure
    · exact fun _ => rfl
    · exact fun _ _ => rfl
  · exact .throw

theorem release_blind (mark : Nat) : Blind (release mark) := .update (fun _ => rfl) fun _ _ => rfl

/-! ## Expressions -/

theorem blind_rules : Rules (fun _ => True) Blind where
  inherited := inherited_true
  pure := .pure
  bind := .bind
  mark h hmark := .get h fun s front => hmark _ _ rfl
  copy := copy_blind
  patched := patched_blind
  byteConstant := byteConstant_blind
  stringConstant := stringConstant_blind
  release := release_blind
  allocate _ := allocate_blind 1 _
  refuse _ _ := .throw
  register {v _ _} _ h := by
    refine .get (fun s => ?_) fun _ _ => rfl
    cases s.bindings.register? v with
    | some r => exact h r
    | none => exact .throw
  word _ _ := jumpOver_blind _
  unresolved _ _ := .throw

/-- By the walk over expressions, for which the primitives are enough. -/
theorem expr_blind (e : Expr) : Blind (expr e) := blind_rules.expr trivial

end Emit

end ByteJump
