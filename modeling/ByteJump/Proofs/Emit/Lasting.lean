import ByteJump.Proofs.Emit.Emission

set_option autoImplicit false

/-!
# Registers that stay taken

Registers are given back only where a block ends.  So as long as no block ends that was open at some
moment, the registers below the mark of that moment stay taken: what is emitted meanwhile leaves
them alone, and whatever gets registers gets others.
-/

namespace ByteJump

namespace Emit

open Assembly Memory

variable {depth : Nat} {scope : List Variable} {items : List Item} {s t u : State}
  {log log' : List Event}

/-! ## Depth -/

/-- While items are emitted at least as many blocks are open as around them. -/
theorem Trace.depth_le (h : Trace depth scope items s log t) : ∀ e ∈ log, depth ≤ e.depth := by
  induction h with
  | done => exact nofun
  | @glue depth _ code _ s _ _ _ _ _ ih =>
      refine List.forall_mem_append.mpr ⟨fun e he => ?_, ih⟩
      cases code <;> simp only [Glue.events, List.mem_singleton, List.not_mem_nil] at he
      rw [he]
  | simple _ _ _ ih | skip _ _ ih =>
      exact List.forall_mem_cons.mpr ⟨Nat.le_refl _, List.forall_mem_cons.mpr ⟨Nat.le_refl _, ih⟩⟩
  | compound _ _ _ ih ih' =>
      refine List.forall_mem_cons.mpr ⟨Nat.le_refl _, List.forall_mem_append.mpr ⟨ih, ?_⟩⟩
      exact List.forall_mem_cons.mpr ⟨Nat.le_refl _, ih'⟩
  | block _ _ ih ih' =>
      refine List.forall_mem_cons.mpr ⟨Nat.le_refl _, List.forall_mem_append.mpr ⟨?_, ?_⟩⟩
      · exact fun e he => Nat.le_of_succ_le (ih e he)
      · exact List.forall_mem_cons.mpr ⟨Nat.le_refl _, ih'⟩
  | file _ _ _ _ ih ih' =>
      refine List.forall_mem_cons.mpr ⟨Nat.le_refl _, ?_⟩
      refine List.forall_mem_cons.mpr ⟨Nat.le_refl _, List.forall_mem_append.mpr ⟨ih, ?_⟩⟩
      refine List.forall_mem_cons.mpr ⟨Nat.le_refl _, ?_⟩
      exact List.forall_mem_cons.mpr ⟨Nat.le_refl _, ih'⟩

/-! ## From an event on -/

/-- No block that is open at the event ends at one of the others. -/
def Inside (e : Event) (others : List Event) : Prop := ∀ x ∈ others, e.depth ≤ x.depth

/-- From each event on, as long as no block ends that is open there, the registers below its mark
are taken. -/
structure Lasts (log : List Event) (t : State) : Prop where
  toEnd : ∀ before e later, log = before ++ e :: later → Inside e later →
    Stretch e.state.mark (e :: later) e.state t
  upTo : ∀ before e later x rest, log = before ++ e :: (later ++ x :: rest) →
    Inside e (later ++ [x]) → Stretch e.state.mark (e :: later) e.state x.state

theorem Inside.left {e : Event} {others others' : List Event} (h : Inside e (others ++ others')) :
    Inside e others := fun x hx => h x (List.mem_append_left _ hx)

theorem Lasts.nil (t : State) : Lasts [] t := by
  refine ⟨fun before e later hlog => ?_, fun before e later x rest hlog => ?_⟩
  all_goals simp at hlog

/-- One event, behind which the registers below its mark are taken. -/
theorem Lasts.one {e : Event} (h : Stretch e.state.mark [e] e.state t) : Lasts [e] t := by
  refine ⟨fun before e' later hlog _ => ?_, fun before e' later x rest hlog => ?_⟩
  · cases before with
    | nil =>
        rw [List.nil_append, List.cons.injEq] at hlog
        obtain ⟨rfl, rfl⟩ := hlog
        exact h
    | cons first before => simp at hlog
  · cases before <;> simp at hlog

theorem Lasts.trans (h : Lasts log t) (hpasses : ∀ m, Taken m t → Passes m log' t u)
    (h' : Lasts log' u) : Lasts (log ++ log') u := by
  refine ⟨fun before e later hlog hinside => ?_, fun before e later x rest hlog hinside => ?_⟩
  · rcases split_append hlog with ⟨more, hfirst, rfl⟩ | ⟨more, hsecond, -⟩
    · have hstretch := h.toEnd _ _ _ hfirst hinside.left
      exact hstretch.trans (hpasses _ hstretch.taken).whole
    · exact h'.toEnd _ _ _ hsecond hinside
  · rcases split_append hlog with ⟨more, hfirst, hmore⟩ | ⟨more, hsecond, -⟩
    · rcases split_append hmore.symm with ⟨between, rfl, -⟩ | ⟨between, hsecond, rfl⟩
      · exact h.upTo _ _ _ _ _ hfirst hinside
      · have hstretch := h.toEnd _ _ _ hfirst hinside.left.left
        exact hstretch.trans ((hpasses _ hstretch.taken).upTo _ _ _ hsecond)
    · exact h'.upTo _ _ _ _ _ hsecond hinside

/-- A block: at its end the blocks inside have ended, and so has it. -/
theorem Lasts.block {first last : Event} (h : Lasts log t)
    (hpasses : Passes first.state.mark (first :: (log ++ [last])) first.state last.state)
    (hlast : Taken last.state.mark last.state) (hmoment : ∃ st, last.moment = .ends st)
    (hdepth : ∀ e ∈ log, last.depth < e.depth) : Lasts (first :: (log ++ [last])) last.state := by
  have hends : Stretch last.state.mark [last] last.state last.state := by
    obtain ⟨moment, depth, state⟩ := last
    obtain ⟨st, rfl⟩ := hmoment
    exact (Passes.ends hlast depth st).whole
  refine ⟨fun before e later hlog hinside => ?_, fun before e later x rest hlog hinside => ?_⟩
  · rcases split_cons hlog with ⟨-, rfl, rfl⟩ | ⟨more, -, hlog⟩
    · exact hpasses.whole
    rcases split_append hlog with ⟨more', hinner, rfl⟩ | ⟨more', hone, -⟩
    · have hmem : e ∈ log := by simp [hinner]
      have hout := hinside last (by simp)
      exact absurd (hdepth e hmem) (Nat.not_lt.mpr hout)
    · cases more' with
      | nil =>
          rw [List.nil_append, List.cons.injEq] at hone
          obtain ⟨rfl, rfl⟩ := hone
          exact hends
      | cons y more' => simp at hone
  · rcases split_cons hlog with ⟨-, rfl, hrest⟩ | ⟨more, -, hlog⟩
    · exact hpasses.upTo (first :: later) x rest (by simp [hrest])
    rcases split_append hlog with ⟨more', hinner, hmore⟩ | ⟨more', hone, -⟩
    · rcases split_append hmore.symm with ⟨between, rfl, -⟩ | ⟨between, hone, -⟩
      · exact h.upTo _ _ _ _ _ hinner hinside
      · have hmem : e ∈ log := by simp [hinner]
        have hx : x = last := by
          cases between with
          | nil =>
              rw [List.nil_append, List.cons.injEq] at hone
              exact hone.1.symm
          | cons y between => simp at hone
        have hout := hinside x (by simp)
        exact absurd (hdepth e hmem) (Nat.not_lt.mpr (hx ▸ hout))
    · cases more' <;> simp at hone

/-! ## Along a trace

Registers stay taken along a row of events if they do along its parts, as long as the parts behind
pass what is taken in front of them.  So a row is composed of its events one by one. -/

/-- The events pass whatever is taken in front of them, and from each of them on registers stay
taken. -/
structure Lasting (log : List Event) (s t : State) : Prop where
  passes : ∀ ⦃m : Nat⦄, Taken m s → Passes m log s t
  lasts : ∀ ⦃m : Nat⦄, Taken m s → Lasts log t

section Lasting

theorem Lasting.trans (h : Lasting log s t) (h' : Lasting log' t u) :
    Lasting (log ++ log') s u where
  passes _ htaken := (h.passes htaken).trans (h'.passes (h.passes htaken).whole.taken)
  lasts _ htaken := by
    have htaken' := (h.passes htaken).whole.taken
    exact (h.lasts htaken).trans (fun _ htaken => h'.passes htaken) (h'.lasts htaken')

/-- Code without an event. -/
theorem Lasting.of_calm (h : ∀ ⦃m : Nat⦄, Taken m s → Stretch m [] s t) : Lasting [] s t :=
  ⟨fun _ htaken => .of_calm (h htaken), fun _ _ => .nil t⟩

theorem Lasting.one {e : Event} (hstate : e.state = s)
    (h : ∀ ⦃m : Nat⦄, Taken m s → Stretch m [e] s t) : Lasting [e] s t := by
  refine ⟨fun _ htaken => .one htaken hstate (h htaken), fun _ htaken => Lasts.one ?_⟩
  rw [hstate]
  exact h htaken.all

theorem Lasting.starts (scope : List Variable) (depth : Nat) {st : Stmt}
    (hvariable : st.declared? = none) :
    Lasting [⟨.starts scope st, depth, s⟩] s (s.labelAll st.labels) :=
  .one rfl fun _ htaken => .starts htaken scope depth hvariable

theorem Lasting.ends (s : State) (depth : Nat) (st : Stmt) :
    Lasting [⟨.ends st, depth, s⟩] s s :=
  .one rfl fun _ htaken => (Passes.ends htaken depth st).whole

theorem Lasting.leaves (s : State) (depth : Nat) (file : Program) :
    Lasting [⟨.leaves file, depth, s⟩] s s :=
  .one rfl fun _ htaken => (Passes.leaves htaken depth file).whole

/-- A file is entered, and then the gap that aligns it is laid down. -/
theorem Lasting.enters (depth : Nat) {file : Program} {align : Nat}
    (halign : alignTo align (s.reach file) = .ok ⟨⟩ t) :
    Lasting [⟨.enters file, depth, s⟩] s t := by
  refine .one rfl fun _ htaken => ?_
  have henters := Stretch.enters htaken file depth
  exact henters.trans (Calm.stretch (alignTo_calm _) henters.taken halign).1

/-- A simple statement, up to where it ends. -/
theorem Lasting.simple (scope : List Variable) (depth : Nat) {labels : List Label} {act : Action}
    (site : Location) (hsimple : isSimple act = true)
    (hrun : action act (s.labelAll labels) = .ok ⟨⟩ t) :
    Lasting [⟨.starts scope (.mk labels act site), depth, s⟩] s t :=
  .one rfl fun _ htaken =>
    (action_simple hsimple (htaken.labelAll labels) hrun).stretch site scope depth

theorem Lasting.glue (depth : Nat) {code : Glue} (hrun : code.emit s = .ok ⟨⟩ t) :
    Lasting (code.events depth s) s t := by
  have hstretch : ∀ ⦃m : Nat⦄, Taken m s → Stretch m (code.events depth s) s t :=
    fun _ htaken => Glue.stretch depth htaken hrun
  cases code with
  | place role serial => exact .one rfl hstretch
  | point _ | branch _ _ _ | jump _ => exact .of_calm hstretch

/-- Behind a block its registers are free again, but no block inside it is open there. -/
theorem Lasting.block {labels : List Label} {body : List Stmt} (site : Location)
    (htrace : Trace (depth + 1) scope (body.map .stmt) (s.labelAll labels) log t)
    (hinner : Lasting log (s.labelAll labels) t) :
    Lasting (⟨.starts scope (.mk labels (.block body) site), depth, s⟩ ::
      (log ++ [⟨.ends (.mk labels (.block body) site), depth, t.released s.mark⟩])) s
      (t.released s.mark) := by
  have hblock : Trace depth scope [.stmt (.mk labels (.block body) site)] s _
      (t.released s.mark) := .block htrace .done
  refine ⟨fun _ htaken => hblock.passes htaken, fun _ htaken => ?_⟩
  have hpasses := hblock.passes htaken.all
  exact Lasts.block (hinner.lasts (htaken.all.labelAll labels)) hpasses hpasses.whole.taken ⟨_, rfl⟩
    htrace.depth_le

end Lasting

theorem Trace.lasting (h : Trace depth scope items s log t) : Lasting log s t := by
  induction h with
  | done => exact .of_calm fun _ htaken => .refl htaken
  | glue hrun _ ih => exact (Lasting.glue _ hrun).trans ih
  | @simple depth scope labels act site items s t u log hsimple hrun _ ih =>
      exact (Lasting.simple scope depth site hsimple hrun).trans ((Lasting.ends _ _ _).trans ih)
  | @compound depth scope labels act site inner items s t u log log' hparts _ _ ih ih' =>
      have hvariable : Stmt.declared? (.mk labels act site) = none := declared?_of_parts hparts
      have hstarts := Lasting.starts scope depth (s := s) hvariable
      exact hstarts.trans (ih.trans ((Lasting.ends _ _ _).trans ih'))
  | @block depth scope labels body site items s t u log log' hinner _ ih ih' =>
      have hblock := (Lasting.block site hinner ih).trans ih'
      rwa [List.cons_append, List.append_assoc] at hblock
  | @skip depth scope labels file site items s u log _ _ ih =>
      have hstarts : Lasting [⟨.starts scope (.mk labels (.place file) site), depth, s⟩] s
          (s.labelAll labels) := .starts scope depth rfl
      exact hstarts.trans ((Lasting.ends _ _ _).trans ih)
  | @file depth scope labels file site items s t u w log log' _ halign _ _ ih ih' =>
      have hstarts : Lasting [⟨.starts scope (.mk labels (.place file) site), depth, s⟩] s
          (s.labelAll labels) := .starts scope depth rfl
      have henters := Lasting.enters depth halign
      have hbehind := (Lasting.ends u depth (.mk labels (.place file) site)).trans ih'
      exact hstarts.trans (henters.trans (ih.trans ((Lasting.leaves u depth file).trans hbehind)))

/-- Along a trace registers stay taken as long as no block ends that is open. -/
theorem Trace.lasts (h : Trace depth scope items s log t) {m : Nat} (htaken : Taken m s) :
    Lasts log t := h.lasting.lasts htaken

end Emit

end ByteJump
