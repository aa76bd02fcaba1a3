import ByteJump.Proofs.Emit.Files
import ByteJump.Proofs.Source

set_option autoImplicit false

/-!
# Registers of variables

Registers are handed out in order and given back at the end of a block.  So where a statement starts,
the variables in scope have registers that lie one behind the other, the newest last, and all below
the mark.  What else is emitted in the meantime binds other variables and writes to registers from
the mark on.

`Fits registers vs mark` is a picture of the registers: the newest variable in scope lies right
below the mark or further down, the next one below it, and so on.  It is kept along a trace
because each step either allocates at the mark and puts the new variable on top, or closes a block
and drops the variables declared in it, or binds variables of other files, whose identities belong
to other units.  `Stands` collects what the induction needs to know about identities: items of a
file declare variables that are not in scope yet, and no file below has declarations of the same
unit.  `Trace.fits` states the picture at every event, and `Trace.standing` adds that what is
emitted in between does not move it.
-/

namespace ByteJump

namespace Emit

open Assembly Memory

/-! ## Variables one behind the other -/

/-- The variables have registers below `mark`, each of them behind those of all that follow. -/
def Fits (registers : List (DeclId × Nat)) : List Variable → Nat → Prop
  | [], _ => True
  | v :: vs, mark =>
      ∃ r, registers.lookup v.id = some r ∧ r + v.slots ≤ mark ∧ Fits registers vs r

section Fits

variable {registers registers' : List (DeclId × Nat)} {vs : List Variable} {mark mark' : Nat}

/-- A higher mark leaves more room. -/
theorem Fits.mono (h : Fits registers vs mark) (hle : mark ≤ mark') : Fits registers vs mark' := by
  cases vs with
  | nil => trivial
  | cons v vs =>
      obtain ⟨r, hr, hbelow, hrest⟩ := h
      exact ⟨r, hr, Nat.le_trans hbelow hle, hrest⟩

/-- Only the registers of the variables in the list matter. -/
theorem Fits.congr (h : Fits registers vs mark)
    (hsame : ∀ v ∈ vs, registers'.lookup v.id = registers.lookup v.id) :
    Fits registers' vs mark := by
  induction vs generalizing mark with
  | nil => trivial
  | cons v vs ih =>
      obtain ⟨r, hr, hbelow, hrest⟩ := h
      refine ⟨r, (hsame v List.mem_cons_self).trans hr, hbelow, ?_⟩
      exact ih hrest fun w hw => hsame w (List.mem_cons_of_mem _ hw)

/-- Every variable has registers, and they lie below the mark. -/
theorem Fits.bound (h : Fits registers vs mark) : ∀ v ∈ vs, ∃ r, registers.lookup v.id = some r ∧
    r + v.slots ≤ mark := by
  induction vs generalizing mark with
  | nil => exact nofun
  | cons v vs ih =>
      obtain ⟨r, hr, hbelow, hrest⟩ := h
      intro w hw
      rcases List.mem_cons.mp hw with rfl | hw
      · exact ⟨r, hr, hbelow⟩
      · obtain ⟨r', hr', hbelow'⟩ := ih hrest w hw
        exact ⟨r', hr', by omega⟩

/-- A variable has its registers in front of those of another one. -/
def InFrontOf (registers : List (DeclId × Nat)) (w v : Variable) : Prop :=
  ∀ r r', registers.lookup w.id = some r → registers.lookup v.id = some r' → r + w.slots ≤ r'

/-- Of two variables the older one has its registers in front. -/
theorem Fits.pairwise (h : Fits registers vs mark) :
    vs.Pairwise fun v w => InFrontOf registers w v := by
  induction vs generalizing mark with
  | nil => exact .nil
  | cons v vs ih =>
      obtain ⟨r, hr, -, hrest⟩ := h
      refine List.pairwise_cons.mpr ⟨fun w hw r' r'' hr' hr'' => ?_, ih hrest⟩
      obtain ⟨known, hknown, hbelow⟩ := hrest.bound w hw
      rw [hknown] at hr'
      rw [hr] at hr''
      cases hr'
      cases hr''
      exact hbelow

end Fits

/-- What is bound in front under other names is not found. -/
theorem lookup_append_of_ne {κ : Type} [BEq κ] [LawfulBEq κ] {front old : List (κ × Nat)} {key : κ}
    (h : ∀ x ∈ front, x.1 ≠ key) : (front ++ old).lookup key = old.lookup key := by
  induction front with
  | nil => rfl
  | cons x front ih =>
      obtain ⟨other, value⟩ := x
      rw [List.cons_append, List.lookup_cons,
        beq_false_of_ne (Ne.symm (h _ List.mem_cons_self))]
      exact ih fun y hy => h y (List.mem_cons_of_mem _ hy)

/-! ## What a trace does to variables in scope

Each step of a trace is treated on its own: a simple statement, a file that is entered, a block
that is closed.  The variables that are declared by a part are fresh by `Stands`, so a look-up of
an older variable passes over them. -/

/-- Items that stand where some variables are in scope: they belong to one unit, with these
variables, and declare others; the files they place are of other units. -/
structure Stands (G : Program → Prop) (unit : FileUnit) (n : Nat) (scope : List Variable)
    (items : List Item) : Prop where
  hosts : Hosts G n items
  outside : ∀ q, G q → sizeOf q < n → FileUnit.library q.file.key ≠ unit
  own : ∀ x ∈ (items.flatMap Item.subs).flatMap Stmt.own, x.1.id.unit = unit ∧ x.1.slots = x.2
  nodup : (((items.flatMap Item.subs).flatMap Stmt.own).map fun x => x.1.id).Nodup
  scope : ∀ v ∈ scope, v.id.unit = unit ∧
    ∀ x ∈ (items.flatMap Item.subs).flatMap Stmt.own, x.1.id ≠ v.id

theorem Rooted.stands {G : Program → Prop} {unit : FileUnit} {p : Program} (h : Rooted G unit p) :
    Stands G unit (sizeOf p) [] (p.statements.map .stmt) := by
  refine ⟨h.hosts, h.outside, ?_, ?_, nofun⟩
  · rw [flatMap_subs_map]
    exact h.named.vars
  · rw [flatMap_subs_map]
    exact h.named.nodupVars

section Stands

variable {G : Program → Prop} {unit : FileUnit} {n : Nat} {scope : List Variable}
  {labels : List Label} {act : Action} {site : Location} {items : List Item}

theorem own_stmt_cons :
    ((Item.stmt (.mk labels act site) :: items).flatMap Item.subs).flatMap Stmt.own =
      (act.own ++ act.subs.flatMap Stmt.own) ++ (items.flatMap Item.subs).flatMap Stmt.own := by
  rw [List.flatMap_cons, Item.subs, Stmt.subs, List.cons_append, List.flatMap_cons,
    List.flatMap_append, List.append_assoc]
  rfl

/-- What a statement itself declares has the registers it takes and is not in scope yet. -/
theorem Stands.fresh (h : Stands G unit n scope (.stmt (.mk labels act site) :: items)) :
    ∀ x ∈ act.own, x.1.slots = x.2 ∧ ∀ v ∈ scope, x.1.id ≠ v.id := by
  intro x hx
  have hmem : x ∈ ((Item.stmt (.mk labels act site) :: items).flatMap Item.subs).flatMap
      Stmt.own := by
    rw [own_stmt_cons]
    exact List.mem_append_left _ (List.mem_append_left _ hx)
  exact ⟨(h.own x hmem).2, fun v hv => (h.scope v hv).2 x hmem⟩

/-- What stands inside a statement stands where the statement does. -/
theorem Stands.inside {parts : List Item}
    (h : Stands G unit n scope (.stmt (.mk labels act site) :: items))
    (hparts : parts.flatMap Item.subs = act.subs) : Stands G unit n scope parts := by
  have hsub : (act.subs.flatMap Stmt.own).Sublist
      (((Item.stmt (.mk labels act site) :: items).flatMap Item.subs).flatMap Stmt.own) := by
    rw [own_stmt_cons]
    exact (List.sublist_append_right _ _).trans (List.sublist_append_left _ _)
  refine ⟨fun st hst => h.hosts st ?_, h.outside, fun x hx => ?_, ?_, fun v hv => ?_⟩
  · rw [hparts] at hst
    exact mem_subs_cons.mpr (Or.inr (Or.inl hst))
  · rw [hparts] at hx
    exact h.own x (hsub.subset hx)
  · rw [hparts]
    exact h.nodup.sublist (hsub.map _)
  · rw [hparts]
    exact ⟨(h.scope v hv).1, fun x hx => (h.scope v hv).2 x (hsub.subset hx)⟩

/-- Items in front of others stand where all of them do. -/
theorem Stands.front {others : List Item} (h : Stands G unit n scope (items ++ others)) :
    Stands G unit n scope items := by
  have hsub : (items.flatMap Item.subs).Sublist ((items ++ others).flatMap Item.subs) := by
    rw [List.flatMap_append]
    exact List.sublist_append_left _ _
  have hown : ((items.flatMap Item.subs).flatMap Stmt.own).Sublist
      (((items ++ others).flatMap Item.subs).flatMap Stmt.own) := by
    rw [List.flatMap_append, List.flatMap_append]
    exact List.sublist_append_left _ _
  exact ⟨fun st hst => h.hosts st (hsub.subset hst), h.outside, fun x hx => h.own x (hown.subset hx),
    h.nodup.sublist (hown.map _),
    fun v hv => ⟨(h.scope v hv).1, fun x hx => (h.scope v hv).2 x (hown.subset hx)⟩⟩

/-- What stands behind a statement stands where the variables of the statement are in scope. -/
theorem Stands.behind (h : Stands G unit n scope (.stmt (.mk labels act site) :: items)) :
    Stands G unit n (act.scope scope) items := by
  have hown := h.own
  have hnodup := h.nodup
  have hscope := h.scope
  rw [own_stmt_cons] at hown hnodup hscope
  refine ⟨fun st hst => h.hosts st ?_, h.outside, fun x hx => hown x ?_, ?_, fun v hv => ?_⟩
  · exact mem_subs_cons.mpr (Or.inr (Or.inr hst))
  · exact List.mem_append_right _ hx
  · exact hnodup.sublist ((List.sublist_append_right _ _).map _)
  · rcases Action.mem_scope act hv with hold | ⟨k, hnew⟩
    · exact ⟨(hscope v hold).1, fun x hx => (hscope v hold).2 x (List.mem_append_right _ hx)⟩
    · refine ⟨(hown _ (List.mem_append_left _ hnew)).1, fun x hx heq => ?_⟩
      rw [List.map_append] at hnodup
      have hdisjoint := (List.nodup_append.mp hnodup).2.2
      exact hdisjoint _ (List.mem_map_of_mem hnew) _ (List.mem_map_of_mem hx) heq.symm

variable {depth : Nat} {around : List Variable} {s t : State} {log : List Event}

/-- No variable in scope gets other registers. -/
theorem Stands.unbound (hG : Library G) (h : Stands G unit n scope items)
    (htrace : Trace depth around items s log t) :
    ∀ v ∈ scope, ∀ x ∈ log.flatMap Event.registers, x.1 ≠ v.id := by
  intro v hv x hx
  obtain ⟨e, he, hx⟩ := List.mem_flatMap.mp hx
  unfold Event.registers at hx
  split at hx
  · rename_i scope' st hmoment
    obtain ⟨w, hw, rfl⟩ := List.mem_map.mp hx
    have hown : (w, st.action.slots) ∈ st.own := List.mem_map.mpr ⟨w, hw, rfl⟩
    rcases htrace.source hG h.hosts ⟨e, he, scope', hmoment⟩ with hmem | ⟨q, -, ⟨hq, hsize⟩, hmem⟩
    · exact (h.scope v hv).2 _ (List.mem_flatMap.mpr ⟨st, hmem, hown⟩)
    · intro heq
      have hunit := ((hG.named q hq).vars _ (List.mem_flatMap.mpr ⟨st, hmem, hown⟩)).1
      have hid : w.id = v.id := heq
      rw [hid, (h.scope v hv).1] at hunit
      exact h.outside q hq hsize hunit.symm
  all_goals cases hx

/-- A declaration puts its variable in front. -/
theorem scope_of_variable {v : Variable} (h : act.declared? = some v) :
    act.scope scope = v :: scope := by
  cases act with
  | define _ _ | reserve _ =>
      cases h
      rfl
  | nothing | place _ | evaluate _ | goto _ | assign _ _ | block _ | branch _ _ _ | loop _ _ _
  | words _ => cases h

/-- Other simple statements leave the scope as it is. -/
theorem scope_of_simple (hsimple : isSimple act = true) (h : act.declared? = none) :
    act.scope scope = scope := by
  cases act with
  | nothing | evaluate _ | goto _ | assign _ _ | words _ => rfl
  | define _ _ | reserve _ => cases h
  | place _ | block _ | branch _ _ _ | loop _ _ _ => cases hsimple

/-- A simple action binds its own variable behind those in scope. -/
theorem Simple.fits {m : Nat} (h : Simple m act s t) (hsimple : isSimple act = true)
    (hfits : Fits s.bindings.registers scope s.mark)
    (hslots : ∀ x ∈ act.own, x.1.slots = x.2 ∧ ∀ v ∈ scope, x.1.id ≠ v.id) :
    Fits t.bindings.registers (act.scope scope) t.mark := by
  cases hvariable : act.declared? with
  | none =>
      have hscope : act.scope scope = scope := scope_of_simple hsimple hvariable
      have hregisters := h.registers
      rw [hvariable] at hregisters
      rw [hscope, hregisters, h.mark, slots_of_variable hvariable]
      exact hfits
  | some v =>
      have hscope : act.scope scope = v :: scope := scope_of_variable hvariable
      have hregisters := h.registers
      rw [hvariable] at hregisters
      have hown : (v, act.slots) ∈ act.own := by simp [Action.own, hvariable]
      obtain ⟨hcount, hnew⟩ := hslots _ hown
      rw [hscope, hregisters, h.mark]
      refine ⟨s.mark, List.lookup_cons_self, Nat.le_of_eq (congrArg _ hcount), ?_⟩
      refine hfits.congr fun w hw => ?_
      rw [Option.toList_some, List.map_singleton]
      refine lookup_append_of_ne fun x hx => ?_
      obtain rfl := List.mem_singleton.mp hx
      exact hnew w hw

/-- Variables in scope have the same registers all the way. -/
theorem Stands.same {m : Nat} (hG : Library G) (h : Stands G unit n scope items)
    (htrace : Trace depth scope items s log t) (htaken : Taken m s) {e : Event} (he : e ∈ log) :
    ∀ v ∈ scope, e.state.bindings.registers.lookup v.id = s.bindings.registers.lookup v.id := by
  intro v hv
  obtain ⟨before, behind, rfl⟩ := List.append_of_mem he
  rw [((htrace.passes htaken).upTo before e behind rfl).registers]
  refine lookup_append_of_ne fun x hx => h.unbound hG htrace v hv x ?_
  rw [List.mem_reverse] at hx
  rw [List.flatMap_append]
  exact List.mem_append_left _ hx

/-- Labels have no registers. -/
theorem Fits.labelAll {labels : List Label} (h : Fits s.bindings.registers scope s.mark) :
    Fits (s.labelAll labels).bindings.registers scope (s.labelAll labels).mark := by
  rw [State.mark_labelAll, (labelAll_rest labels s).2.2.1]
  exact h

theorem Taken.all {m : Nat} (h : Taken m s) : Taken s.mark s :=
  ⟨h.position, Nat.le_refl _, h.count⟩

/-- Variables that have registers at an event: those in scope where a statement starts, and those of
a file where it ends. -/
def Event.inScope (e : Event) : List Variable :=
  match e.moment with
  | .starts scope _ => scope
  | .leaves file => file.variables
  | .ends _ | .enters _ | .reaches .. => []

/-- The variables of the event have registers one behind the other below the mark. -/
def Event.Fits (e : Event) : Prop := Emit.Fits e.state.bindings.registers e.inScope e.state.mark

/-- The code between statements notes no variables of its own. -/
theorem Glue.fits (code : Glue) (depth : Nat) (s : State) :
    ∀ e ∈ code.events depth s, e.Fits := by
  intro e he
  cases code <;> simp only [Glue.events, List.mem_singleton, List.not_mem_nil] at he
  rw [he]
  trivial

/-- The variables in scope fit at every event on the way, and behind all of them. -/
theorem Trace.fits (hG : Library G) (h : Trace depth scope items s log t) :
    ∀ {m : Nat} {unit : FileUnit} {n : Nat}, Stands G unit n scope items → Taken m s →
      Fits s.bindings.registers scope s.mark →
      (∀ e ∈ log, e.Fits) ∧ Fits t.bindings.registers (items.foldl Item.scope scope) t.mark := by
  induction h with
  | done => exact fun _ _ hfits => ⟨nofun, hfits⟩
  | @glue depth scope code items s t u log hrun _ ih =>
      intro m unit n hstands htaken hfits
      have hglue := Glue.stretch depth htaken.all hrun
      have hstands' : Stands G unit n scope items :=
        ⟨hstands.hosts, hstands.outside, hstands.own, hstands.nodup, hstands.scope⟩
      have hregisters : t.bindings.registers = s.bindings.registers := by
        rw [hglue.registers]
        cases code <;> rfl
      have hfits' : Fits t.bindings.registers scope t.mark :=
        hregisters ▸ hfits.mono hglue.taken.mark
      obtain ⟨hlog, hend⟩ := ih hstands' hglue.taken hfits'
      exact ⟨List.forall_mem_append.mpr ⟨code.fits depth s, hlog⟩, hend⟩
  | @simple depth scope labels act site items s t u log hsimple hrun _ ih =>
      intro m unit n hstands htaken hfits
      have hact := action_simple hsimple (htaken.labelAll labels) hrun
      have hfits' := hact.fits hsimple hfits.labelAll hstands.fresh
      obtain ⟨hlog, hend⟩ := ih hstands.behind hact.taken hfits'
      exact ⟨List.forall_mem_cons.mpr ⟨hfits, List.forall_mem_cons.mpr ⟨trivial, hlog⟩⟩, hend⟩
  | @compound depth scope labels act site inner items s t u log log' hparts htrace _ ih ih' =>
      intro m unit n hstands htaken hfits
      have htaken' := htaken.labelAll labels
      obtain ⟨hlog, hinner⟩ := ih (hstands.inside (parts_subs hparts)) htaken' hfits.labelAll
      rw [parts_scope scope hparts] at hinner
      have hpasses := htrace.passes htaken'
      obtain ⟨hlog', hend⟩ := ih' hstands.behind hpasses.whole.taken hinner
      refine ⟨List.forall_mem_cons.mpr ⟨hfits, ?_⟩, hend⟩
      exact List.forall_mem_append.mpr ⟨hlog, List.forall_mem_cons.mpr ⟨trivial, hlog'⟩⟩
  | @block depth scope labels body site items s t u log log' htrace hrest ih ih' =>
      intro m unit n hstands htaken hfits
      have htaken' := htaken.labelAll labels
      have hsubs : (body.map Item.stmt).flatMap Item.subs = (Action.block body).subs :=
        flatMap_subs_map body
      obtain ⟨hlog, -⟩ := ih (hstands.inside hsubs) htaken' hfits.labelAll
      have hpasses := htrace.passes htaken'
      have hreleased : Taken m (t.released s.mark) :=
        ⟨hpasses.whole.taken.position, htaken.mark, htaken.count⟩
      -- the bindings of the block stay; they are not in scope behind it
      have hsame := hstands.same hG (.block htrace hrest) htaken
        (List.mem_cons_of_mem _ (List.mem_append_right log List.mem_cons_self))
      obtain ⟨hlog', hend⟩ := ih' hstands.behind hreleased (hfits.congr hsame)
      refine ⟨List.forall_mem_cons.mpr ⟨hfits, ?_⟩, hend⟩
      exact List.forall_mem_append.mpr ⟨hlog, List.forall_mem_cons.mpr ⟨trivial, hlog'⟩⟩
  | @skip depth scope labels file site items s u log _ _ ih =>
      intro m unit n hstands htaken hfits
      obtain ⟨hlog, hend⟩ := ih hstands.behind (htaken.labelAll labels) hfits.labelAll
      exact ⟨List.forall_mem_cons.mpr ⟨hfits, List.forall_mem_cons.mpr ⟨trivial, hlog⟩⟩, hend⟩
  | @file depth scope labels file site items s t u w log log' hskip halign htrace hrest ih ih' =>
      intro m unit n hstands htaken hfits
      have hlabels := htaken.all.labelAll labels
      have henters := Stretch.enters hlabels file depth
      have hstart := (Calm.stretch (alignTo_calm _) henters.taken halign).1
      obtain ⟨hfile, -⟩ := hstands.hosts _ (mem_subs_cons.mpr (Or.inl rfl)) file rfl
      -- a file starts with no variable in scope, whatever is around the import
      obtain ⟨hlog, hleaves⟩ := ih (hG.rooted hfile).stands hstart.taken trivial
      rw [foldl_scope_map] at hleaves
      have hpasses := htrace.passes hstart.taken
      have hsame := hstands.same hG (.file hskip halign htrace hrest) htaken
        (e := ⟨.ends (.mk labels (.place file) site), depth, u⟩) (by simp)
      have hfits' := (hfits.congr hsame).mono hpasses.whole.taken.mark
      obtain ⟨hlog', hend⟩ := ih' hstands.behind hpasses.whole.taken hfits'
      refine ⟨List.forall_mem_cons.mpr ⟨hfits, List.forall_mem_cons.mpr ⟨trivial, ?_⟩⟩, hend⟩
      refine List.forall_mem_append.mpr ⟨hlog, List.forall_mem_cons.mpr ⟨hleaves, ?_⟩⟩
      exact List.forall_mem_cons.mpr ⟨trivial, hlog'⟩

/-- Wherever a statement starts, it stands where the variables are that are in scope there. -/
theorem Trace.standing (hG : Library G) (h : Trace depth scope items s log t) :
    ∀ {unit : FileUnit} {n : Nat}, Stands G unit n scope items → ∀ e ∈ log, ∀ around st,
      e.moment = .starts around st → ∃ unit n, Stands G unit n around [.stmt st] := by
  induction h with
  | done => exact fun _ e he => nomatch he
  | @glue _ scope code items _ _ _ _ _ _ ih =>
      intro unit n hstands e he around st hmoment
      rcases List.mem_append.mp he with he | he
      · cases code <;> simp only [Glue.events, List.mem_singleton, List.not_mem_nil] at he
        rw [he] at hmoment
        cases hmoment
      · have hstands' : Stands G unit n scope items :=
          ⟨hstands.hosts, hstands.outside, hstands.own, hstands.nodup, hstands.scope⟩
        exact ih hstands' e he around st hmoment
  | simple _ _ _ ih | skip _ _ ih =>
      intro unit n hstands e he around st hmoment
      rcases List.mem_cons.mp he with rfl | he
      · cases hmoment
        exact ⟨unit, n, hstands.front⟩
      rcases List.mem_cons.mp he with rfl | he
      · cases hmoment
      · exact ih hstands.behind e he around st hmoment
  | compound hparts _ _ ih ih' =>
      intro unit n hstands e he around st hmoment
      rcases List.mem_cons.mp he with rfl | he
      · cases hmoment
        exact ⟨unit, n, hstands.front⟩
      rcases List.mem_append.mp he with he | he
      · exact ih (hstands.inside (parts_subs hparts)) e he around st hmoment
      rcases List.mem_cons.mp he with rfl | he
      · cases hmoment
      · exact ih' hstands.behind e he around st hmoment
  | @block _ _ _ body _ _ _ _ _ _ _ _ _ ih ih' =>
      intro unit n hstands e he around st hmoment
      rcases List.mem_cons.mp he with rfl | he
      · cases hmoment
        exact ⟨unit, n, hstands.front⟩
      rcases List.mem_append.mp he with he | he
      · exact ih (hstands.inside (flatMap_subs_map body)) e he around st hmoment
      rcases List.mem_cons.mp he with rfl | he
      · cases hmoment
      · exact ih' hstands.behind e he around st hmoment
  | @file _ _ _ file _ _ _ _ _ _ _ _ _ _ _ _ ih ih' =>
      intro unit n hstands e he around st hmoment
      rcases List.mem_cons.mp he with rfl | he
      · cases hmoment
        exact ⟨unit, n, hstands.front⟩
      rcases List.mem_cons.mp he with rfl | he
      · cases hmoment
      rcases List.mem_append.mp he with he | he
      · -- inside a file its own unit takes over
        obtain ⟨hfile, -⟩ := hstands.hosts _ (mem_subs_cons.mpr (Or.inl rfl)) file rfl
        exact ih (hG.rooted hfile).stands e he around st hmoment
      rcases List.mem_cons.mp he with rfl | he
      · cases hmoment
      rcases List.mem_cons.mp he with rfl | he
      · cases hmoment
      · exact ih' hstands.behind e he around st hmoment

end Stands

end Emit

end ByteJump
