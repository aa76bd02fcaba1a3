import ByteJump.Proofs.Emit.Trace

set_option autoImplicit false

/-!
# What a stretch of emission changes

The events of a trace say what has changed from its first state to its last one: which labels were
placed and where, which registers variables got, which files and points were placed, and which
label became the entry.  The same holds up to each event on the way.

Where the registers below a mark are taken, they stay taken: all that happens leaves them alone.

Each event of a trace carries its own share of the change: the start of a statement binds its
labels and registers its variable, entering a file notes it as placed, a point is placed where it
is reached.  `Stretch m log s t` says that the difference between the two states is the sum of
these shares, in the order of the log.  `Passes` adds that this is so up to every event.  Both
take the registers below `m` to be taken; code that is emitted in between is calm, so it leaves no
trace of its own.
-/

namespace ByteJump

/-- The variable that a statement itself declares. -/
def Stmt.declared? (st : Stmt) : Option Variable := st.action.declared?

namespace Emit

open Assembly Memory

/-! ## What an event changes -/

namespace Event

/-- The labels placed at an event, with their addresses. -/
def addresses (e : Event) : List (DeclId × Nat) :=
  match e.moment with
  | .starts _ st => st.labels.map fun l => (l.id, e.state.position)
  | .reaches .. | .ends _ | .enters _ | .leaves _ => []

/-- The address of an entry, if a label at the event names one. -/
def entry? (e : Event) : Option Nat :=
  match e.moment with
  | .starts _ st => if st.labels.any isEntry then some e.state.position else none
  | .reaches .. | .ends _ | .enters _ | .leaves _ => none

/-- The points placed at an event, with their addresses. -/
def points (e : Event) : List (Nat × Nat) :=
  match e.moment with
  | .reaches serial => [(serial, e.state.position)]
  | .starts .. | .ends _ | .enters _ | .leaves _ => []

/-- The variable that gets its registers behind an event, with the first of them. -/
def registers (e : Event) : List (DeclId × Nat) :=
  match e.moment with
  | .starts _ st => st.declared?.toList.map fun v => (v.id, e.state.mark)
  | .reaches .. | .ends _ | .enters _ | .leaves _ => []

/-- The file placed behind an event, if it is placed only once. -/
def placed (e : Event) : List Path.Key :=
  match e.moment with
  | .enters file => if file.pragmas.multi then [] else [file.file.key]
  | .reaches .. | .starts .. | .ends _ | .leaves _ => []

end Event

/-- What has changed from one state to another with some events in between; the registers below
`m` are taken all the time. -/
structure Stretch (m : Nat) (log : List Event) (s t : State) : Prop where
  spares : Spares m s t
  taken : Taken m t
  addresses : t.bindings.addresses = (log.flatMap Event.addresses).reverse ++ s.bindings.addresses
  registers : t.bindings.registers = (log.flatMap Event.registers).reverse ++ s.bindings.registers
  entry : t.entry = s.entry.or (log.findSome? Event.entry?)
  points : t.points = (log.flatMap Event.points).reverse ++ s.points
  placed : t.placed = (log.flatMap Event.placed).reverse ++ s.placed

section Stretch

variable {m : Nat} {log log' : List Event} {s t u : State}

/-- Nothing has happened, and no event says otherwise. -/
theorem Stretch.refl (h : Taken m s) : Stretch m [] s s :=
  ⟨.refl s, h, rfl, rfl, by simp, rfl, rfl⟩

/-- The shares of the first part come first. -/
theorem Stretch.trans (h : Stretch m log s t) (h' : Stretch m log' t u) :
    Stretch m (log ++ log') s u where
  spares := h.spares.trans h'.spares
  taken := h'.taken
  addresses := by simp [h'.addresses, h.addresses]
  registers := by simp [h'.registers, h.registers]
  entry := by rw [h'.entry, h.entry, List.findSome?_append, Option.or_assoc]
  points := by simp [h'.points, h.points]
  placed := by simp [h'.placed, h.placed]

/-- Code that binds nothing. -/
theorem Stretch.of_calm (hkept : Kept s t) (hspares : Spares m s t) (htaken : Taken m t) :
    Stretch m [] s t where
  spares := hspares
  taken := htaken
  addresses := congrArg Bindings.addresses hkept.bindings
  registers := congrArg Bindings.registers hkept.bindings
  entry := by simp [hkept.entry]
  points := hkept.points
  placed := hkept.placed

theorem Calm.stretch {α : Type} {x : Emitter α} {Q : α → State → Prop} {a : α}
    (h : Calm m x s Q) (htaken : Taken m s) (hrun : x s = .ok a t) : Stretch m [] s t ∧ Q a t := by
  obtain ⟨⟨hkept, hspares, htaken'⟩, hQ⟩ := h.run htaken a t hrun
  exact ⟨.of_calm hkept hspares htaken', hQ⟩

/-- Only the mark has changed. -/
theorem Stretch.of_released (htaken : Taken m s) {mark : Nat} (hmark : m ≤ mark)
    (hcount : mark ≤ registerCount) : Stretch m [] s (s.released mark) :=
  ⟨.of_eq rfl rfl, ⟨htaken.position, hmark, hcount⟩, rfl, rfl, by simp [State.released], rfl, rfl⟩

/-! ## The start of a statement -/

/-- Each label has the address at which the statement starts. -/
theorem labelAll_addresses (labels : List Label) : ∀ s : State,
    (s.labelAll labels).bindings.addresses =
      (labels.map fun l => (l.id, s.position)).reverse ++ s.bindings.addresses := by
  induction labels with
  | nil => exact fun s => rfl
  | cons l labels ih =>
      intro s
      have hlabels := ih (s.label l)
      simp only [State.labelAll, List.foldl_cons] at hlabels ⊢
      rw [hlabels]
      simp [State.label, Bindings.place]

/-- The first entry stays the entry. -/
theorem labelAll_entry (labels : List Label) : ∀ s : State,
    (s.labelAll labels).entry =
      s.entry.or (if labels.any isEntry then some s.position else none) := by
  induction labels with
  | nil => exact fun s => by simp [State.labelAll]
  | cons l labels ih =>
      intro s
      have hlabels := ih (s.label l)
      simp only [State.labelAll, List.foldl_cons] at hlabels ⊢
      rw [hlabels]
      by_cases hl : isEntry l = true <;> cases hentry : s.entry <;>
        simp [State.label, List.any_cons, hl, hentry]

/-- Labels change nothing but addresses and the entry. -/
theorem labelAll_rest (labels : List Label) : ∀ s : State,
    (s.labelAll labels).pieces = s.pieces ∧ (s.labelAll labels).position = s.position ∧
      (s.labelAll labels).bindings.registers = s.bindings.registers ∧
      (s.labelAll labels).points = s.points := by
  induction labels with
  | nil => exact fun s => ⟨rfl, rfl, rfl, rfl⟩
  | cons l labels ih => exact fun s => ih (s.label l)

theorem position_labelAll (s : State) (labels : List Label) :
    (s.labelAll labels).position = s.position := (labelAll_rest labels s).2.1

theorem Taken.labelAll (h : Taken m s) (labels : List Label) : Taken m (s.labelAll labels) := by
  refine ⟨?_, ?_, ?_⟩
  · rw [position_labelAll]
    exact h.position
  · rw [State.mark_labelAll]
    exact h.mark
  · rw [State.mark_labelAll]
    exact h.count

/-- The labels of a statement that starts are placed, and its variable gets its registers later. -/
theorem Stretch.starts (htaken : Taken m s) (scope : List Variable) (depth : Nat) {st : Stmt}
    (hvariable : st.declared? = none) :
    Stretch m [⟨.starts scope st, depth, s⟩] s (s.labelAll st.labels) := by
  obtain ⟨hpieces, hposition, hregisters, hpoints⟩ := labelAll_rest st.labels s
  refine ⟨.of_eq hpieces hposition, htaken.labelAll _, ?_, ?_, ?_, ?_, ?_⟩
  · rw [labelAll_addresses]
    simp [Event.addresses]
  · simp [Event.registers, hvariable, hregisters]
  · rw [labelAll_entry]
    simp [Event.entry?]
  · simp [Event.points, hpoints]
  · simp [Event.placed, State.placed_labelAll]

/-! ## Statements with no other inside

A simple statement declares at most one variable, whose registers start at the mark. -/

theorem slots_of_variable {act : Action} (h : act.declared? = none) : act.slots = 0 := by
  cases act <;> first | rfl | cases h

/-- A simple action was emitted: code was added, the variable it declares got its registers, and
nothing else was bound. -/
structure Simple (m : Nat) (act : Action) (s t : State) : Prop where
  spares : Spares m s t
  taken : Taken m t
  mark : t.mark = s.mark + act.slots
  addresses : t.bindings.addresses = s.bindings.addresses
  registers : t.bindings.registers =
    (act.declared?.toList.map fun v => (v.id, s.mark)) ++ s.bindings.registers
  entry : t.entry = s.entry
  points : t.points = s.points
  placed : t.placed = s.placed

theorem Calm.simple {act : Action} (hvariable : act.declared? = none)
    (h : Calm m (action act) s (SameMark s)) (htaken : Taken m s)
    (hrun : action act s = .ok ⟨⟩ t) : Simple m act s t := by
  obtain ⟨⟨hkept, hspares, htaken'⟩, hmark⟩ := h.run htaken ⟨⟩ t hrun
  refine ⟨hspares, htaken', ?_, ?_, ?_, hkept.entry, hkept.points, hkept.placed⟩
  · rw [show t.mark = s.mark from hmark]
    rw [slots_of_variable hvariable, Nat.add_zero]
  · rw [hkept.bindings]
  · simp [hvariable, hkept.bindings]

/-- The value is calm code, and the copy goes to the new register. -/
theorem define_simple (v : Variable) (value : Expr)
    (htaken : Taken m s) (hrun : action (.define v value) s = .ok ⟨⟩ t) :
    Simple m (.define v value) s t := by
  rw [action] at hrun
  obtain ⟨_, u₁, hvalue, hrun⟩ := ok_bind hrun
  obtain ⟨r, u₂, hallocate, hrun⟩ := ok_bind hrun
  obtain ⟨_, u₃, hbind, hcopy⟩ := ok_bind hrun
  obtain ⟨⟨hkept₁, hspares₁, htaken₁⟩, hmark₁⟩ := (expr_calm value).run htaken _ _ hvalue
  obtain ⟨⟨hkept₂, hspares₂, htaken₂⟩, hr, hmark₂⟩ :=
    (allocate_calm 1 v.site).run htaken₁ _ _ hallocate
  cases hbind
  have hmark₁ : u₁.mark = s.mark := hmark₁
  have htaken₃ : Taken m { u₂ with bindings := u₂.bindings.bind v r } :=
    ⟨htaken₂.position, htaken₂.mark, htaken₂.count⟩
  have hfree : ∀ i < registerSize, Free m (register r + i) := by
    intro i _
    have := htaken₁.mark
    have := htaken₂.count
    exact free_of_register (by omega) (by omega) (Nat.le_add_right _ _)
  obtain ⟨⟨hkept₃, hspares₃, htaken₄⟩, hmark₃⟩ :=
    (copyRange_calm registerSize immediate (register r) fun _ => hfree).run htaken₃ _ _ hcopy
  have hspares : Spares m s { u₂ with bindings := u₂.bindings.bind v r } :=
    (hspares₁.trans hspares₂).trans (.of_eq rfl rfl)
  refine ⟨hspares.trans hspares₃, htaken₄, ?_, ?_, ?_, ?_, ?_, ?_⟩
  · show t.mark = s.mark + 1
    rw [show t.mark = u₂.mark from hmark₃, hmark₂, hmark₁]
  · rw [hkept₃.bindings]
    show u₂.bindings.addresses = _
    rw [hkept₂.bindings, hkept₁.bindings]
  · rw [hkept₃.bindings]
    show (v.id, r) :: u₂.bindings.registers = (v.id, s.mark) :: _
    rw [hkept₂.bindings, hkept₁.bindings, hr, hmark₁]
    rfl
  · rw [hkept₃.entry]
    show u₂.entry = _
    rw [hkept₂.entry, hkept₁.entry]
  · rw [hkept₃.points]
    show u₂.points = _
    rw [hkept₂.points, hkept₁.points]
  · rw [hkept₃.placed]
    show u₂.placed = _
    rw [hkept₂.placed, hkept₁.placed]

/-- No code at all, and registers that are taken from here on. -/
theorem reserve_simple (v : Variable) (htaken : Taken m s)
    (hrun : action (.reserve v) s = .ok ⟨⟩ t) : Simple m (.reserve v) s t := by
  rw [action] at hrun
  cases hcount : v.count with
  | none =>
      rw [hcount] at hrun
      cases hrun
  | some count =>
      rw [hcount] at hrun
      obtain ⟨r, u, hallocate, hbind⟩ := ok_bind hrun
      obtain ⟨⟨hkept, hspares, htaken'⟩, hr, hmark⟩ :=
        (allocate_calm count v.site).run htaken _ _ hallocate
      cases hbind
      refine ⟨hspares.trans (.of_eq rfl rfl), ⟨htaken'.position, htaken'.mark, htaken'.count⟩, ?_,
        ?_, ?_, hkept.entry, hkept.points, hkept.placed⟩
      · show u.mark = s.mark + v.count.getD 0
        rw [hmark, hcount, Option.getD_some]
      · show u.bindings.addresses = _
        rw [hkept.bindings]
      · show (v.id, r) :: u.bindings.registers = (v.id, s.mark) :: _
        rw [hkept.bindings, hr]
        rfl

/-- One case for each simple action. -/
theorem action_simple {act : Action} (hsimple : isSimple act = true) (htaken : Taken m s)
    (hrun : action act s = .ok ⟨⟩ t) : Simple m act s t := by
  cases act with
  | nothing =>
      rw [action] at hrun
      cases hrun
      exact ⟨.refl s, htaken, rfl, rfl, rfl, rfl, rfl, rfl⟩
  | evaluate value =>
      refine Calm.simple rfl ?_ htaken hrun
      rw [action]
      exact expr_calm value
  | goto target => exact Calm.simple rfl (goto_calm target) htaken hrun
  | define v value => exact define_simple v value htaken hrun
  | reserve v => exact reserve_simple v htaken hrun
  | assign target value =>
      refine Calm.simple rfl ?_ htaken hrun
      rw [action]
      exact store_calm target value
  | words values =>
      refine Calm.simple rfl ?_ htaken hrun
      rw [action]
      exact rawWords_calm values
  | place _ | block _ | branch _ _ _ | loop _ _ _ => cases hsimple

/-- A statement with no other inside. -/
theorem Simple.stretch {labels : List Label} {act : Action} (site : Location)
    (h : Simple m act (s.labelAll labels) t) (scope : List Variable) (depth : Nat) :
    Stretch m [⟨.starts scope (.mk labels act site), depth, s⟩] s t := by
  obtain ⟨hpieces, hposition, hregisters, hpoints⟩ := labelAll_rest labels s
  refine ⟨(Spares.of_eq hpieces hposition).trans h.spares, h.taken, ?_, ?_, ?_, ?_, ?_⟩
  · rw [h.addresses, labelAll_addresses]
    simp [Event.addresses, Stmt.labels]
  · rw [h.registers, State.mark_labelAll, hregisters]
    cases hvariable : act.declared? <;> simp [Event.registers, Stmt.declared?, Stmt.action, hvariable]
  · rw [h.entry, labelAll_entry]
    simp [Event.entry?, Stmt.labels]
  · rw [h.points, hpoints]
    simp [Event.points]
  · rw [h.placed, State.placed_labelAll]
    simp [Event.placed]

/-! ## Code around statements -/

/-- Points and jumps of conditions and loops are calm, but for the points they place. -/
theorem Glue.stretch {code : Glue} (depth : Nat) (htaken : Taken m s)
    (hrun : code.emit s = .ok ⟨⟩ t) : Stretch m (code.events depth s) s t := by
  cases code with
  | point role =>
      cases hrun
      exact ⟨.of_eq rfl rfl, ⟨htaken.position, htaken.mark, htaken.count⟩, rfl, rfl,
        by simp [Glue.events], rfl, rfl⟩
  | branch condition taken otherwise =>
      exact (Calm.stretch (branch_calm condition taken otherwise) htaken hrun).1
  | jump target =>
      have hjump : Calm m (jumpTo target) s (SameMark s) :=
        .emit (run_push _ s) (fun _ => free_jump rfl) rfl
      exact (Calm.stretch hjump htaken hrun).1
  | place role serial =>
      cases hrun
      exact ⟨.of_eq rfl rfl, ⟨htaken.position, htaken.mark, htaken.count⟩, rfl, rfl,
        by simp [Glue.events, Event.entry?], rfl, rfl⟩

end Stretch

/-! ## Along a trace -/

/-- What has changed behind some events, and up to each of them; from each of them on code is
added. -/
structure Passes (m : Nat) (log : List Event) (s t : State) : Prop where
  whole : Stretch m log s t
  upTo : ∀ before e behind, log = before ++ e :: behind → Stretch m before s e.state
  onward : ∀ e ∈ log, Spares 0 e.state t

section Passes

variable {m : Nat} {log log' : List Event} {s t u : State}

theorem Passes.of_calm (h : Stretch m [] s t) : Passes m [] s t := by
  refine ⟨h, fun before e behind heq => ?_, nofun⟩
  simp at heq

theorem Passes.refl (h : Taken m s) : Passes m [] s s := .of_calm (.refl h)

/-- An event of the second part has all of the first part behind it. -/
theorem Passes.trans (h : Passes m log s t) (h' : Passes m log' t u) :
    Passes m (log ++ log') s u := by
  refine ⟨h.whole.trans h'.whole, fun before e behind heq => ?_, ?_⟩
  · rcases List.append_eq_append_iff.mp heq with ⟨more, rfl, hlog'⟩ | ⟨more, hlog, hmore⟩
    · exact h.whole.trans (h'.upTo more e behind hlog')
    · cases more with
      | nil =>
          rw [List.append_nil] at hlog
          subst hlog
          have hfirst := h'.upTo [] e behind (by simpa using hmore.symm)
          simpa using h.whole.trans hfirst
      | cons first more =>
          rw [List.cons_append, List.cons.injEq] at hmore
          obtain ⟨rfl, -⟩ := hmore
          exact h.upTo before e more hlog
  · have hrest := h'.whole.spares.mono (Nat.zero_le m) h.whole.taken.le_count
    exact List.forall_mem_append.mpr ⟨fun e he => (h.onward e he).trans hrest, h'.onward⟩

/-- One event, at the state where it happens. -/
theorem Passes.one {e : Event} (htaken : Taken m s) (hstate : e.state = s)
    (h : Stretch m [e] s t) : Passes m [e] s t := by
  refine ⟨h, fun before e' behind heq => ?_, fun e' he' => ?_⟩
  · cases before with
    | nil =>
        simp only [List.nil_append, List.cons.injEq] at heq
        rw [← heq.1, hstate]
        exact .refl htaken
    | cons first before => simp at heq
  · rw [List.mem_singleton.mp he', hstate]
    exact h.spares.mono (Nat.zero_le m) htaken.le_count

theorem Passes.starts (htaken : Taken m s) (scope : List Variable) (depth : Nat) {st : Stmt}
    (hvariable : st.declared? = none) :
    Passes m [⟨.starts scope st, depth, s⟩] s (s.labelAll st.labels) :=
  .one htaken rfl (.starts htaken scope depth hvariable)

/-- The end of a statement changes nothing. -/
theorem Passes.ends (htaken : Taken m s) (depth : Nat) (st : Stmt) :
    Passes m [⟨.ends st, depth, s⟩] s s :=
  .one htaken rfl ⟨.refl s, htaken, rfl, rfl, by simp [Event.entry?], rfl, rfl⟩

theorem Passes.leaves (htaken : Taken m s) (depth : Nat) (file : Program) :
    Passes m [⟨.leaves file, depth, s⟩] s s :=
  .one htaken rfl ⟨.refl s, htaken, rfl, rfl, by simp [Event.entry?], rfl, rfl⟩

/-- The file is about to be placed. -/
theorem Stretch.enters (htaken : Taken m s) (file : Program) (depth : Nat) :
    Stretch m [⟨.enters file, depth, s⟩] s (s.reach file) := by
  unfold State.reach
  split
  · rename_i hmulti
    refine ⟨.refl s, htaken, rfl, rfl, by simp [Event.entry?], rfl, ?_⟩
    simp [Event.placed, hmulti]
  · rename_i hmulti
    refine ⟨.of_eq rfl rfl, ⟨htaken.position, htaken.mark, htaken.count⟩, rfl, rfl,
      by simp [Event.entry?], rfl, ?_⟩
    simp [Event.placed, hmulti]

end Passes

theorem declared?_of_parts {serial : Nat} {act : Action} {items : List Item}
    (h : parts serial act = some items) : act.declared? = none := by
  cases act <;> first | rfl | cases h

/-- What happens along a trace where the registers below `m` are taken: up to each event, and from
the first state to the last one, its events say what has changed. -/
theorem Trace.passes {m depth : Nat} {scope : List Variable} {items : List Item} {s t : State}
    {log : List Event} (h : Trace depth scope items s log t) (htaken : Taken m s) :
    Passes m log s t := by
  induction h with
  | done => exact .refl htaken
  | @glue depth scope code items s t u log hrun _ ih =>
      have hglue := Glue.stretch depth htaken hrun
      refine Passes.trans ?_ (ih hglue.taken)
      cases code with
      | place role serial => exact .one htaken rfl hglue
      | point _ | branch _ _ _ | jump _ => exact .of_calm hglue
  | @simple depth scope labels act site items s t u log hsimple hrun _ ih =>
      have hact := action_simple hsimple (htaken.labelAll labels) hrun
      refine (Passes.one htaken rfl (hact.stretch site scope depth)).trans ?_
      exact (Passes.ends hact.taken depth _).trans (ih hact.taken)
  | @compound depth scope labels act site inner items s t u log log' hparts _ _ ih ih' =>
      have hinner := ih (htaken.labelAll labels)
      have htaken' := hinner.whole.taken
      have hvariable : Stmt.declared? (.mk labels act site) = none := declared?_of_parts hparts
      refine (Passes.starts htaken scope depth hvariable).trans ?_
      exact hinner.trans ((Passes.ends htaken' depth _).trans (ih' htaken'))
  | @block depth scope labels body site items s t u log log' _ _ ih ih' =>
      have hinner := ih (htaken.labelAll labels)
      have hreleased := Stretch.of_released hinner.whole.taken htaken.mark htaken.count
      have htaken' := hreleased.taken
      refine (Passes.starts htaken scope depth rfl).trans (hinner.trans ?_)
      refine (Passes.of_calm hreleased).trans ?_
      exact (Passes.ends htaken' depth _).trans (ih' htaken')
  | @skip depth scope labels file site items s u log hskip _ ih =>
      have htaken' := htaken.labelAll labels
      refine (Passes.starts htaken scope depth rfl).trans ?_
      exact (Passes.ends htaken' depth _).trans (ih htaken')
  | @file depth scope labels file site items s t u w log log' hskip halign _ _ ih ih' =>
      have hlabels := htaken.labelAll labels
      have henters := Stretch.enters hlabels file depth
      have hstart := (Calm.stretch (alignTo_calm _) henters.taken halign).1
      have hinner := ih hstart.taken
      have htaken' := hinner.whole.taken
      refine (Passes.starts htaken scope depth rfl).trans ?_
      refine (Passes.one hlabels rfl henters).trans ((Passes.of_calm hstart).trans ?_)
      refine hinner.trans ((Passes.leaves htaken' depth file).trans ?_)
      exact (Passes.ends htaken' depth _).trans (ih' htaken')

end Emit

end ByteJump
