import ByteJump.Proofs.ConstantValues
import ByteJump.Proofs.Emit.Plain
import ByteJump.Proofs.Resolve.Sound

set_option autoImplicit false

/-!
# What is used is placed

While statements are emitted, a symbol in the code is settled or still open.  It is settled when it
is placed, or when it is a label of a file that was reached: such a file has been emitted, or it is
being emitted and will be when all is done.  Everything a statement opens is settled behind it, so
nothing is left open at the end.

A variable gets its register before the statements behind its declaration are emitted, also where
the declaration itself may never run.

The invariant is `AllIn`: every symbol in the code so far is settled or pending.  `Step` relates
two states on the way: what was settled stays settled, and new symbols are covered as well.  Both
are combined in `Emits`, whose rules are those of a triple, with the rule that a point may be
pending from the jump to it up to its place.  Settled means placed, or belonging to a file that is
reached; the second disjunct is what allows a file to be imported again while it is still being
emitted.
-/

namespace ByteJump

namespace Emit

open Assembly Memory Resolve

variable {I : Imports} {α β : Type}

/-! ## Settled symbols -/

/-- The label has an address. -/
def Bound (s : State) (label : Label) : Prop := (s.bindings.address? label).isSome = true

/-- The variable has a register. -/
def Registered (s : State) (id : DeclId) : Prop := (s.bindings.registers.lookup id).isSome = true

/-- The symbol is placed, or it is a label of a file that was reached. -/
def Settled (I : Imports) (s : State) : Target → Prop
  | .label label => Bound s label ∨ ∃ p : Program, p.file.key ∈ s.placed ∧
      I.lookup p.file.key = some p ∧ label ∈ p.ownLabels
  | .point _ serial => (s.points.lookup serial).isSome = true

/-- What is bound or placed stays so. -/
structure Keeps (s t : State) : Prop where
  registers : ∀ id, Registered s id → Registered t id
  addresses : ∀ label, Bound s label → Bound t label
  points : ∀ serial, (s.points.lookup serial).isSome = true → (t.points.lookup serial).isSome = true
  placed : ∀ key ∈ s.placed, key ∈ t.placed

theorem Keeps.refl (s : State) : Keeps s s :=
  ⟨fun _ h => h, fun _ h => h, fun _ h => h, fun _ h => h⟩

/-- What is kept by both parts is kept. -/
theorem Keeps.trans {s t u : State} (h : Keeps s t) (h' : Keeps t u) : Keeps s u :=
  ⟨fun id hid => h'.registers id (h.registers id hid),
    fun label hlabel => h'.addresses label (h.addresses label hlabel),
    fun serial hserial => h'.points serial (h.points serial hserial),
    fun key hkey => h'.placed key (h.placed key hkey)⟩

/-- What is settled stays settled. -/
theorem Settled.mono {s t : State} (h : Keeps s t) {target : Target} (hs : Settled I s target) :
    Settled I t target := by
  cases target with
  | label label =>
      rcases hs with hbound | ⟨p, hplaced, hp, hlabel⟩
      · exact Or.inl (h.addresses label hbound)
      · exact Or.inr ⟨p, h.placed _ hplaced, hp, hlabel⟩
  | point role serial => exact h.points serial hs

/-- Every symbol in the code is settled or one of those that are open. -/
def AllIn (I : Imports) (pending : Target → Prop) (s : State) : Prop :=
  ∀ piece ∈ s.pieces.toList, PieceIn (fun target => Settled I s target ∨ pending target) piece

/-- Code was emitted: it was added, what was bound stays so, and the files that were reached on the
way have been emitted. -/
structure Step (I : Imports) (s t : State) : Prop extends Keeps s t where
  code : AddsIn (fun _ => True) s t
  finished : ∀ key ∈ t.placed, key ∈ s.placed ∨
    ∀ p, I.lookup key = some p → ∀ label ∈ p.ownLabels, Bound t label

theorem Step.refl (I : Imports) (s : State) : Step I s s :=
  ⟨Keeps.refl s, AddsIn.refl _ s, fun _ hkey => Or.inl hkey⟩

/-- Symbols of the first part are covered behind it, and stay so. -/
theorem Step.trans {s t u : State} (h : Step I s t) (h' : Step I t u) : Step I s u := by
  refine ⟨h.toKeeps.trans h'.toKeeps, h.code.trans h'.code, fun key hkey => ?_⟩
  rcases h'.finished key hkey with hold | hnew
  · refine (h.finished key hold).imp id fun hfinished p hp label hlabel => ?_
    exact h'.addresses label (hfinished p hp label hlabel)
  · exact Or.inr hnew

/-- A state that differs only in what was bound or placed. -/
theorem Step.of_keeps {s t : State} (h : Keeps s t) (hpieces : t.pieces = s.pieces)
    (hposition : t.position = s.position) (hplaced : t.placed = s.placed) : Step I s t := by
  refine ⟨h, ⟨[], by simp [hpieces], by simp, hposition⟩, fun key hkey => Or.inl ?_⟩
  rwa [hplaced] at hkey

theorem AllIn.of_keeps {pending : Target → Prop} {s t : State} (h : Keeps s t)
    (hpieces : t.pieces = s.pieces) (hs : AllIn I pending s) : AllIn I pending t := by
  intro piece hpiece
  rw [hpieces] at hpiece
  exact (hs piece hpiece).mono fun target htarget => htarget.imp (Settled.mono h) id

theorem Quiet.keeps {among : Target → Prop} {s t : State} (h : Quiet among s t) : Keeps s t where
  registers id hid := by
    unfold Registered at hid ⊢
    rwa [h.bindings]
  addresses label hlabel := by
    unfold Bound at hlabel ⊢
    rwa [h.bindings]
  points serial hserial := by rwa [h.points]
  placed key hkey := by rwa [h.placed]

/-- Code alone settles nothing, and loses nothing. -/
theorem Quiet.step {among : Target → Prop} {s t : State} (h : Quiet among s t) : Step I s t := by
  obtain ⟨more, hpieces, hin, hposition⟩ := h.code
  refine ⟨h.keeps, ⟨more, hpieces, ?_, hposition⟩, fun key hkey => Or.inl ?_⟩
  · exact fun piece hpiece => (hin piece hpiece).mono fun _ _ => trivial
  · rwa [h.placed] at hkey

theorem Quiet.allIn {pending : Target → Prop} {s t : State} (h : Quiet pending s t)
    (hs : AllIn I pending s) : AllIn I pending t := by
  intro piece hpiece
  obtain ⟨more, hpieces, hin, -⟩ := h.code
  rw [hpieces] at hpiece
  rcases List.mem_append.mp hpiece with hold | hnew
  · exact (hs piece hold).mono fun target htarget => htarget.imp (Settled.mono h.keeps) id
  · exact (hin piece hnew).mono fun target htarget => Or.inr htarget

/-! ## Rules -/

/-- Emitting leaves no symbol open but those that may be, and then `Q` holds. -/
structure Emits (I : Imports) (pending : Target → Prop) (x : Emitter α) (Q : α → State → Prop)
    (s : State) : Prop where
  ends : AllIn I pending s → Ends x (fun a t => Step I s t ∧ AllIn I pending t ∧ Q a t) s

section Rules

variable {pending : Target → Prop} {s : State}

theorem Emits.pure {a : α} {Q : α → State → Prop} (h : Q a s) :
    Emits I pending (Pure.pure a) Q s := ⟨fun hs => Ends.pure ⟨.refl I s, hs, h⟩⟩

/-- The second part starts where the first one ends, with the same symbols pending. -/
theorem Emits.bind {x : Emitter β} {f : β → Emitter α} {P : β → State → Prop}
    {Q : α → State → Prop} (h : Emits I pending x P s)
    (hf : ∀ b t, Step I s t → P b t → Emits I pending (f b) Q t) :
    Emits I pending (x >>= f) Q s := by
  refine ⟨fun hs => Ends.bind ((h.ends hs).mono ?_)⟩
  rintro b t ⟨hstep, ht, hP⟩
  refine ((hf b t hstep hP).ends ht).mono ?_
  rintro a u ⟨hstep', hu, hQ⟩
  exact ⟨hstep.trans hstep', hu, hQ⟩

/-- What is said of the result is weakened. -/
theorem Emits.mono {x : Emitter α} {P Q : α → State → Prop} (h : Emits I pending x P s)
    (hPQ : ∀ a t, Step I s t → P a t → Q a t) : Emits I pending x Q s :=
  ⟨fun hs => (h.ends hs).mono fun a t ⟨hstep, ht, hP⟩ => ⟨hstep, ht, hPQ a t hstep hP⟩⟩

theorem Emits.get {f : State → Emitter α} {Q : α → State → Prop} (h : Emits I pending (f s) Q s) :
    Emits I pending (MonadState.get >>= f) Q s := ⟨fun hs => Ends.get (h.ends hs)⟩

/-- Plain code refers to pending symbols only. -/
theorem Emits.plain {x : Emitter α} (h : Plain s.bindings pending x) :
    Emits I pending x (fun _ t => t.bindings = s.bindings) s :=
  ⟨fun hs => (h.ends s rfl).mono fun _ _ hquiet =>
    ⟨hquiet.step, hquiet.allIn hs, hquiet.bindings⟩⟩

theorem Emits.update {f : State → State} {Q : PUnit → State → Prop} (hkeeps : Keeps s (f s))
    (hpieces : (f s).pieces = s.pieces) (hposition : (f s).position = s.position)
    (hplaced : (f s).placed = s.placed) (h : Q ⟨⟩ (f s)) : Emits I pending (modify f) Q s :=
  ⟨fun hs => Ends.update
    ⟨.of_keeps hkeeps hpieces hposition hplaced, hs.of_keeps hkeeps hpieces, h⟩⟩

/-- Symbols may be open for a while that are settled at the end. -/
theorem Emits.narrow {among : Target → Prop} {x : Emitter α} {Q : α → State → Prop}
    (hamong : ∀ target, pending target → among target) (h : Emits I among x Q s)
    (hsettled : ∀ a t, Q a t → ∀ target, among target → pending target ∨ Settled I t target) :
    Emits I pending x Q s := by
  refine ⟨fun hs => ?_⟩
  have hs' : AllIn I among s := fun piece hpiece =>
    (hs piece hpiece).mono fun target htarget => htarget.imp id (hamong target)
  refine (h.ends hs').mono ?_
  rintro a t ⟨hstep, ht, hQ⟩
  refine ⟨hstep, fun piece hpiece => (ht piece hpiece).mono fun target htarget => ?_, hQ⟩
  rcases htarget with htarget | htarget
  · exact Or.inl htarget
  · exact (hsettled a t hQ target htarget).symm

end Rules

/-! ## Labels, points and registers -/

section Parts

variable {pending : Target → Prop} {s : State}

theorem isSome_lookup_cons {κ ν : Type} [BEq κ] {key other : κ} {value : ν} {l : List (κ × ν)}
    (h : (l.lookup other).isSome = true) : (((key, value) :: l).lookup other).isSome = true := by
  rw [List.lookup_cons]
  split
  · rfl
  · exact h

/-- Behind its place a label has an address. -/
theorem placeLabel_emits (label : Label) :
    Emits I pending (placeLabel label) (fun _ t => Bound t label) s := by
  refine Emits.update ⟨fun _ h => h, fun other hother => ?_, fun _ h => h, fun _ h => h⟩ rfl rfl rfl ?_
  · exact isSome_lookup_cons hother
  · show (List.lookup label.id ((label.id, s.position) :: s.bindings.addresses)).isSome = true
    rw [List.lookup_cons_self]
    rfl

theorem forM_placeLabel_emits (labels : List Label) :
    Emits I pending (labels.forM placeLabel) (fun _ t => ∀ label ∈ labels, Bound t label) s := by
  induction labels generalizing s with
  | nil => exact Emits.pure (by simp)
  | cons label labels ih =>
      refine (placeLabel_emits label).bind fun _ t _ hlabel => ih.mono fun _ u hstep hlabels => ?_
      intro other hother
      rcases List.mem_cons.mp hother with rfl | hother
      · exact hstep.addresses _ hlabel
      · exact hlabels other hother

theorem newPoint_emits (role : String) :
    Emits I pending (newPoint role) (fun target _ => ∃ serial, target = .point role serial) s := by
  refine Emits.get (Emits.bind (P := fun _ _ => True) ?_ fun _ _ _ _ => Emits.pure ⟨_, rfl⟩)
  exact Emits.update ⟨fun _ h => h, fun _ h => h, fun _ h => h, fun _ h => h⟩ rfl rfl rfl trivial

/-- Nothing comes before a point is placed, and then it is settled. -/
theorem place_emits {target : Target} (h : ∃ role serial, target = .point role serial) :
    Emits I pending (place target) (fun _ t => Settled I t target) s := by
  obtain ⟨role, serial, rfl⟩ := h
  refine Emits.update ⟨fun _ h => h, fun _ h => h, fun other hother => ?_, fun _ h => h⟩ rfl rfl rfl ?_
  · exact isSome_lookup_cons hother
  · show (List.lookup serial ((serial, s.position) :: s.points)).isSome = true
    rw [List.lookup_cons_self]
    rfl

theorem pieceIn_jump {among : Target → Prop} {target : Target} (h : among target) :
    PieceIn among (.instruction 0 0 (.address target none)) := by
  rintro _ ⟨⟩
  exact h

/-- A jump may go to any symbol that is pending. -/
theorem jumpTo_emits {target : Target} (h : pending target) :
    Emits I pending (jumpTo target) (fun _ t => t.bindings = s.bindings) s :=
  Emits.plain (push_plain (pieceIn_jump h))

/-- Behind its declaration a variable has a register. -/
theorem bind_emits (v : Variable) (r : Nat) :
    Emits I pending (modify fun s => { s with bindings := s.bindings.bind v r })
      (fun _ t => Registered t v.id) s := by
  refine Emits.update ⟨fun id hid => ?_, fun _ h => h, fun _ h => h, fun _ h => h⟩ rfl rfl rfl ?_
  · exact isSome_lookup_cons hid
  · show (List.lookup v.id ((v.id, r) :: s.bindings.registers)).isSome = true
    rw [List.lookup_cons_self]
    rfl

/-! ## Branches -/

theorem select_plain {b : Bindings} {among : Target → Prop} (table jump : Nat) : ∀ count i,
    Plain b among (select table jump count i)
  | 0, _ => Plain.pure
  | count + 1, i => by
      rw [select]
      refine position_plain fun _ => (patched_plain _ _ _).bind fun _ => ?_
      exact (instruction_plain _ _ _).bind fun _ => select_plain table jump count _

theorem table_in {among : Target → Prop} {taken otherwise : Target} (htaken : among taken)
    (hotherwise : among otherwise) :
    ∀ piece ∈ [Piece.word (.address taken none), .word (.address otherwise none)],
      PieceIn among piece := by
  intro piece hpiece
  simp only [List.mem_cons, List.not_mem_nil, or_false] at hpiece
  rcases hpiece with rfl | rfl <;> rintro _ ⟨⟩
  · exact htaken
  · exact hotherwise

/-- The two targets are pending, and stand in the table. -/
theorem branch_plain {b : Bindings} {among : Target → Prop} {condition : Expr}
    {taken otherwise : Target}
    (hproper : condition.Proper fun v => (b.registers.lookup v.id).isSome = true)
    (hlabels : condition.LabelsIn fun label => among (.label label)) (htaken : among taken)
    (hotherwise : among otherwise) : Plain b among (branch condition taken otherwise) := by
  refine plain_rules.branch ⟨hproper, hlabels⟩ ?_
  refine (jumpOverAligned_plain 16 (table_in htaken hotherwise)).bind fun table => ?_
  exact position_plain fun _ => (select_plain _ _ _ _).bind fun _ => instruction_plain _ _ _

/-! ## Constants -/

/-- A constant whose labels have addresses can fail only for what it computes. -/
theorem isGenerated_of_evaluate {s : State} {e : Expr} {f : Fault}
    (hlabels : e.LabelsIn fun label => Bound s label)
    (h : Constant.evaluate s.env e = .error f) : f.isGenerated = true := by
  obtain ⟨n, hn, hfault⟩ := Constant.exists_fault h
  rcases Constant.fault?_cases hfault with
    ⟨text, i, rfl, hx⟩ | ⟨use, i, rfl, hx⟩ | rfl | ⟨type, rfl⟩ | rfl
  · simp only [State.env] at hx
    split at hx <;> cases hx
    rfl
  · obtain ⟨label, htarget, hbound⟩ := hlabels.of_visited _ hn
    obtain ⟨address, haddress⟩ := Option.isSome_iff_exists.mp hbound
    simp [State.env, Constant.ofTarget, htarget, State.address, haddress, Except.map] at hx
  · rfl
  · rfl
  · rfl

/-- With all labels placed, a constant fails by its operators only. -/
theorem isGenerated_of_constant {s : State} {value : Expr} {fault : Fault}
    (hlabels : value.LabelsIn (Bound s)) (h : s.constant value = .error fault) :
    fault.isGenerated = true := by
  unfold State.constant at h
  cases hconstant : Constant.evaluate s.env value with
  | ok v =>
      rw [hconstant] at h
      cases h
  | error e =>
      rw [hconstant] at h
      cases h
      exact isGenerated_of_evaluate hlabels hconstant

end Parts

end Emit

end ByteJump
