import ByteJump.Proofs.Emit.Stretch
import ByteJump.Proofs.Resolve.Sound

set_option autoImplicit false

/-!
# Inside a trace

A trace has traces inside it: one for each statement that starts, and one for each file that is
entered.  A statement of a file starts once in every emission of the file, in the order of the
text, and what starts besides belongs to files that are entered on the way, which are smaller.

A trace is a list of items with what each of them has done, and a compound statement has a trace
of its own parts inside.  Two questions are answered here by induction on traces.  `Trace.origin`
and its companions ask where an event comes from: a statement that starts is one of the items, or
stands in a file that was entered.  `OwnTraces` and its companions go the other way: for each
statement among the items, and for each file that is entered, there is a trace inside with that
statement or file at its front.  Counting is by files that get smaller, which is what makes both
inductions end.
-/

namespace ByteJump

namespace Emit

open Assembly Memory

/-! ## Items

What stands in a list of items, as the list of its statements with the scope in front of each.
For the items of an action it is what stands in the action. -/

namespace Item

/-- The statements in an item. -/
def subs : Item → List Stmt
  | .stmt st => st.subs
  | .glue _ => []

/-- The variables in scope behind an item. -/
def scope (around : List Variable) : Item → List Variable
  | .stmt st => st.scope around
  | .glue _ => around

/-- The statements in items, each with the variables in scope in front of it. -/
def places (around : List Variable) : List Item → List (List Variable × Stmt)
  | [] => []
  | .stmt st :: items => st.places around ++ places (st.scope around) items
  | .glue _ :: items => places around items

theorem snd_places : ∀ (items : List Item) (around : List Variable),
    (places around items).map Prod.snd = items.flatMap subs
  | [], _ => rfl
  | .stmt st :: items, around => by
      rw [places, List.map_append, Stmt.snd_places st, snd_places items]
      rfl
  | .glue _ :: items, around => snd_places items around

theorem places_map (ss : List Stmt) (around : List Variable) :
    places around (ss.map .stmt) = Stmt.listPlaces around ss := by
  induction ss generalizing around with
  | nil => rfl
  | cons s ss ih =>
      rw [List.map_cons, places, ih]
      rfl

end Item

theorem flatMap_subs_map (ss : List Stmt) :
    (ss.map Item.stmt).flatMap Item.subs = Stmt.listSubs ss := by
  induction ss with
  | nil => rfl
  | cons s ss ih =>
      rw [List.map_cons, List.flatMap_cons, ih]
      rfl

theorem foldl_scope_map (ss : List Stmt) (around : List Variable) :
    (ss.map Item.stmt).foldl Item.scope around = Stmt.listScope around ss := by
  induction ss generalizing around with
  | nil => rfl
  | cons s ss ih => exact ih _

section Parts

variable {serial : Nat} {act : Action} {items : List Item}

/-- The items of an action hold the statements of the action. -/
theorem parts_subs (h : parts serial act = some items) : items.flatMap Item.subs = act.subs := by
  cases act with
  | branch condition taken otherwise =>
      cases otherwise <;> cases h <;> simp [Item.subs, Action.subs, Stmt.optionSubs]
  | loop condition body bodyFirst =>
      cases bodyFirst <;> cases h <;> simp [Item.subs, Action.subs]
  | nothing | place _ | evaluate _ | goto _ | define _ _ | reserve _ | assign _ _ | block _
  | words _ => cases h

/-- Behind the items the scope is the one behind the action. -/
theorem parts_scope (around : List Variable) (h : parts serial act = some items) :
    items.foldl Item.scope around = act.scope around := by
  cases act with
  | branch condition taken otherwise =>
      cases otherwise <;> cases h <;> rfl
  | loop condition body bodyFirst =>
      cases bodyFirst <;> cases h <;> rfl
  | nothing | place _ | evaluate _ | goto _ | define _ _ | reserve _ | assign _ _ | block _
  | words _ => cases h

theorem parts_places (around : List Variable) (h : parts serial act = some items) :
    Item.places around items = act.places around := by
  cases act with
  | branch condition taken otherwise =>
      cases otherwise <;> cases h <;> simp [Item.places, Action.places, Stmt.optionPlaces]
  | loop condition body bodyFirst =>
      cases bodyFirst <;> cases h <;> simp [Item.places, Action.places]
  | nothing | place _ | evaluate _ | goto _ | define _ _ | reserve _ | assign _ _ | block _
  | words _ => cases h

/-- A simple action has no statement inside it and places no file. -/
theorem subs_of_simple (h : isSimple act = true) : act.subs = [] ∧ act.file? = none := by
  cases act <;> first | exact ⟨rfl, rfl⟩ | cases h

end Parts

theorem mem_subs_cons {labels : List Label} {act : Action} {site : Location} {items : List Item}
    {st : Stmt} : st ∈ (Item.stmt (.mk labels act site) :: items).flatMap Item.subs ↔
      st = .mk labels act site ∨ st ∈ act.subs ∨ st ∈ items.flatMap Item.subs := by
  rw [List.flatMap_cons, Item.subs, Stmt.subs, List.cons_append, List.mem_cons, List.mem_append]

theorem mem_places_cons {labels : List Label} {act : Action} {site : Location} {items : List Item}
    {around : List Variable} {x : List Variable × Stmt} :
    x ∈ Item.places around (.stmt (.mk labels act site) :: items) ↔
      x = (around, .mk labels act site) ∨ x ∈ act.places around ∨
        x ∈ Item.places (act.scope around) items := by
  rw [Item.places, Stmt.places, List.cons_append, List.mem_cons, List.mem_append]
  rfl

/-! ## Statements that start and files that are entered

The three notions look at the log only.  They split with the log, which is all that the inductions
on traces need of them. -/

/-- The statement starts at one of the events. -/
def Starts (log : List Event) (st : Stmt) : Prop :=
  ∃ e ∈ log, ∃ scope, e.moment = .starts scope st

/-- The statement starts at one of the events, with some variables in scope. -/
def StartsIn (log : List Event) (around : List Variable) (st : Stmt) : Prop :=
  ∃ e ∈ log, e.moment = .starts around st

/-- A statement that starts does so with some variables in scope. -/
theorem Starts.startsIn {log : List Event} {st : Stmt} (h : Starts log st) :
    ∃ around, StartsIn log around st := by
  obtain ⟨e, he, around, hmoment⟩ := h
  exact ⟨around, e, he, hmoment⟩

/-- The file is entered at one of the events. -/
def Enters (log : List Event) (file : Program) : Prop := ∃ e ∈ log, e.moment = .enters file

theorem Starts.mono {log log' : List Event} {st : Stmt} (h : Starts log st)
    (hsub : ∀ e ∈ log, e ∈ log') : Starts log' st := by
  obtain ⟨e, he, scope, hmoment⟩ := h
  exact ⟨e, hsub e he, scope, hmoment⟩

@[simp]
theorem starts_nil {st : Stmt} : ¬ Starts [] st := by
  rintro ⟨e, he, -⟩
  cases he

@[simp]
theorem starts_cons {e : Event} {log : List Event} {st : Stmt} :
    Starts (e :: log) st ↔ (∃ scope, e.moment = .starts scope st) ∨ Starts log st := by
  simp only [Starts, List.mem_cons, exists_eq_or_imp]

@[simp]
theorem starts_append {log log' : List Event} {st : Stmt} :
    Starts (log ++ log') st ↔ Starts log st ∨ Starts log' st := by
  simp only [Starts, List.mem_append, or_and_right, exists_or]

@[simp]
theorem startsIn_nil {around : List Variable} {st : Stmt} : ¬ StartsIn [] around st := by
  rintro ⟨e, he, -⟩
  cases he

@[simp]
theorem startsIn_cons {e : Event} {log : List Event} {around : List Variable} {st : Stmt} :
    StartsIn (e :: log) around st ↔ e.moment = .starts around st ∨ StartsIn log around st := by
  simp only [StartsIn, List.mem_cons, exists_eq_or_imp]

@[simp]
theorem startsIn_append {log log' : List Event} {around : List Variable} {st : Stmt} :
    StartsIn (log ++ log') around st ↔ StartsIn log around st ∨ StartsIn log' around st := by
  simp only [StartsIn, List.mem_append, or_and_right, exists_or]

@[simp]
theorem enters_nil {file : Program} : ¬ Enters [] file := by
  rintro ⟨e, he, -⟩
  cases he

@[simp]
theorem enters_cons {e : Event} {log : List Event} {file : Program} :
    Enters (e :: log) file ↔ e.moment = .enters file ∨ Enters log file := by
  simp only [Enters, List.mem_cons, exists_eq_or_imp]

@[simp]
theorem enters_append {log log' : List Event} {file : Program} :
    Enters (log ++ log') file ↔ Enters log file ∨ Enters log' file := by
  simp only [Enters, List.mem_append, or_and_right, exists_or]

@[simp]
theorem not_starts_glue {depth : Nat} {s : State} {code : Glue} {st : Stmt} :
    ¬ Starts (code.events depth s) st := by
  cases code <;> simp [Glue.events]

@[simp]
theorem not_startsIn_glue {depth : Nat} {s : State} {code : Glue} {around : List Variable}
    {st : Stmt} : ¬ StartsIn (code.events depth s) around st := by
  cases code <;> simp [Glue.events]

@[simp]
theorem not_enters_glue {depth : Nat} {s : State} {code : Glue} {file : Program} :
    ¬ Enters (code.events depth s) file := by
  cases code <;> simp [Glue.events]

section Trace

variable {depth : Nat} {scope : List Variable} {items : List Item} {s t : State}
  {log : List Event}

/-- Every statement among the items starts. -/
theorem Trace.starts (h : Trace depth scope items s log t) :
    ∀ st ∈ items.flatMap Item.subs, Starts log st := by
  induction h with
  | done => exact fun st hst => nomatch hst
  | glue _ _ ih => exact fun st hst => starts_append.mpr (Or.inr (ih st hst))
  | simple hsimple _ _ ih =>
      intro st hst
      rcases mem_subs_cons.mp hst with rfl | hst | hst
      · simp
      · rw [(subs_of_simple hsimple).1] at hst
        cases hst
      · simp [ih st hst]
  | compound hparts _ _ ih ih' =>
      intro st hst
      rcases mem_subs_cons.mp hst with rfl | hst | hst
      · simp
      · rw [← parts_subs hparts] at hst
        simp [ih st hst]
      · simp [ih' st hst]
  | block _ _ ih ih' =>
      intro st hst
      rcases mem_subs_cons.mp hst with rfl | hst | hst
      · simp
      · rw [Action.subs, ← flatMap_subs_map] at hst
        simp [ih st hst]
      · simp [ih' st hst]
  | skip _ _ ih =>
      intro st hst
      rcases mem_subs_cons.mp hst with rfl | hst | hst
      · simp
      · cases hst
      · simp [ih st hst]
  | file _ _ _ _ _ ih' =>
      intro st hst
      rcases mem_subs_cons.mp hst with rfl | hst | hst
      · simp
      · cases hst
      · simp [ih' st hst]

/-- A statement is one among the items, or one of a file that is entered. -/
def Origin (scope : List Variable) (items : List Item) (log : List Event)
    (x : List Variable × Stmt) : Prop :=
  x ∈ Item.places scope items ∨ ∃ file, Enters log file ∧ x ∈ Stmt.listPlaces [] file.statements

/-- An origin among some of the items is one among all of them. -/
theorem Origin.mono {scope' : List Variable} {items' : List Item} {log' : List Event}
    {x : List Variable × Stmt} (h : Origin scope items log x)
    (hitems : x ∈ Item.places scope items → x ∈ Item.places scope' items')
    (hlog : ∀ file, Enters log file → Enters log' file) : Origin scope' items' log' x := by
  rcases h with h | ⟨file, henters, hx⟩
  · exact Or.inl (hitems h)
  · exact Or.inr ⟨file, hlog file henters, hx⟩

/-- A statement that starts is one among the items, or one of a file that is entered, and the
variables in scope are those of its place there. -/
theorem Trace.origin (h : Trace depth scope items s log t) :
    ∀ around st, StartsIn log around st → Origin scope items log (around, st) := by
  induction h with
  | done => exact fun _ _ hst => (startsIn_nil hst).elim
  | glue _ _ ih =>
      intro around st hst
      refine (ih around st (by simpa using hst)).mono id fun file hfile => ?_
      exact enters_append.mpr (Or.inr hfile)
  | simple _ _ _ ih =>
      intro around st hst
      simp only [startsIn_cons, Moment.starts.injEq, reduceCtorEq, false_or] at hst
      rcases hst with ⟨rfl, rfl⟩ | hst
      · exact Or.inl (mem_places_cons.mpr (Or.inl rfl))
      · refine (ih around st hst).mono (fun hx => ?_) fun file hfile => by simp [hfile]
        exact mem_places_cons.mpr (Or.inr (Or.inr hx))
  | compound hparts _ _ ih ih' =>
      intro around st hst
      simp only [startsIn_cons, startsIn_append, Moment.starts.injEq, reduceCtorEq,
        false_or] at hst
      rcases hst with ⟨rfl, rfl⟩ | hst | hst
      · exact Or.inl (mem_places_cons.mpr (Or.inl rfl))
      · refine (ih around st hst).mono (fun hx => ?_) fun file hfile => by simp [hfile]
        rw [parts_places _ hparts] at hx
        exact mem_places_cons.mpr (Or.inr (Or.inl hx))
      · refine (ih' around st hst).mono (fun hx => ?_) fun file hfile => by simp [hfile]
        exact mem_places_cons.mpr (Or.inr (Or.inr hx))
  | block _ _ ih ih' =>
      intro around st hst
      simp only [startsIn_cons, startsIn_append, Moment.starts.injEq, reduceCtorEq,
        false_or] at hst
      rcases hst with ⟨rfl, rfl⟩ | hst | hst
      · exact Or.inl (mem_places_cons.mpr (Or.inl rfl))
      · refine (ih around st hst).mono (fun hx => ?_) fun file hfile => by simp [hfile]
        rw [Item.places_map] at hx
        exact mem_places_cons.mpr (Or.inr (Or.inl hx))
      · refine (ih' around st hst).mono (fun hx => ?_) fun file hfile => by simp [hfile]
        exact mem_places_cons.mpr (Or.inr (Or.inr hx))
  | skip _ _ ih =>
      intro around st hst
      simp only [startsIn_cons, Moment.starts.injEq, reduceCtorEq, false_or] at hst
      rcases hst with ⟨rfl, rfl⟩ | hst
      · exact Or.inl (mem_places_cons.mpr (Or.inl rfl))
      · refine (ih around st hst).mono (fun hx => ?_) fun file hfile => by simp [hfile]
        exact mem_places_cons.mpr (Or.inr (Or.inr hx))
  | @file _ _ _ file _ _ _ _ _ _ _ _ _ _ _ _ ih ih' =>
      intro around st hst
      simp only [startsIn_cons, startsIn_append, Moment.starts.injEq, reduceCtorEq,
        false_or] at hst
      rcases hst with ⟨rfl, rfl⟩ | hst | hst
      · exact Or.inl (mem_places_cons.mpr (Or.inl rfl))
      · rcases ih around st hst with hx | ⟨other, henters, hx⟩
        · exact Or.inr ⟨file, by simp, by rwa [Item.places_map] at hx⟩
        · exact Or.inr ⟨other, by simp [henters], hx⟩
      · refine (ih' around st hst).mono (fun hx => ?_) fun file hfile => by simp [hfile]
        exact mem_places_cons.mpr (Or.inr (Or.inr hx))

/-- What holds of the files that the items place, and of the files that such files place, holds of
all files that are entered. -/
theorem Trace.enters_of {P : Program → Prop} (h : Trace depth scope items s log t)
    (hfiles : ∀ file, P file → ∀ other ∈ file.files, P other)
    (hitems : ∀ st ∈ items.flatMap Item.subs, ∀ file, st.action = .place file → P file) :
    ∀ file, Enters log file → P file := by
  induction h with
  | done => exact fun file hfile => (enters_nil hfile).elim
  | glue _ _ ih => exact fun file hfile => ih hitems file (by simpa using hfile)
  | simple _ _ _ ih | skip _ _ ih =>
      intro file hfile
      refine ih (fun st hst => hitems st ?_) file (by simpa using hfile)
      exact mem_subs_cons.mpr (Or.inr (Or.inr hst))
  | compound hparts _ _ ih ih' =>
      intro file hfile
      simp only [enters_cons, enters_append, reduceCtorEq, false_or] at hfile
      rcases hfile with hfile | hfile
      · refine ih (fun st hst => hitems st ?_) file hfile
        rw [parts_subs hparts] at hst
        exact mem_subs_cons.mpr (Or.inr (Or.inl hst))
      · refine ih' (fun st hst => hitems st ?_) file hfile
        exact mem_subs_cons.mpr (Or.inr (Or.inr hst))
  | block _ _ ih ih' =>
      intro file hfile
      simp only [enters_cons, enters_append, reduceCtorEq, false_or] at hfile
      rcases hfile with hfile | hfile
      · refine ih (fun st hst => hitems st ?_) file hfile
        rw [flatMap_subs_map] at hst
        exact mem_subs_cons.mpr (Or.inr (Or.inl hst))
      · refine ih' (fun st hst => hitems st ?_) file hfile
        exact mem_subs_cons.mpr (Or.inr (Or.inr hst))
  | @file _ _ labels placed site _ _ _ _ _ _ _ _ _ _ _ ih ih' =>
      intro file hfile
      have hplaced : P placed := hitems _ (mem_subs_cons.mpr (Or.inl rfl)) placed rfl
      simp only [enters_cons, enters_append, Moment.enters.injEq, reduceCtorEq, false_or] at hfile
      rcases hfile with rfl | hfile | hfile
      · exact hplaced
      · refine ih (fun st hst other hother => hfiles placed hplaced other ?_) file hfile
        rw [flatMap_subs_map] at hst
        rw [Program.files, Stmt.listFiles_eq]
        exact List.mem_flatMap.mpr ⟨st, hst, by rw [hother]; exact List.mem_singleton.mpr rfl⟩
      · refine ih' (fun st hst => hitems st ?_) file hfile
        exact mem_subs_cons.mpr (Or.inr (Or.inr hst))

/-- The trace of items in a row is one of the first ones and, behind it, one of the others. -/
theorem Trace.split {items' : List Item} (h : Trace depth scope (items ++ items') s log t) :
    ∃ first rest u, log = first ++ rest ∧ Trace depth scope items s first u ∧
      Trace depth (items.foldl Item.scope scope) items' u rest t := by
  induction items generalizing scope s log with
  | nil => exact ⟨[], log, s, rfl, .done, h⟩
  | cons item items ih =>
      cases h with
      | glue hrun hrest =>
          obtain ⟨first, rest, u, rfl, hfirst, hbehind⟩ := ih hrest
          exact ⟨_, rest, u, (List.append_assoc _ _ _).symm, .glue hrun hfirst, hbehind⟩
      | simple hsimple hrun hrest =>
          obtain ⟨first, rest, u, rfl, hfirst, hbehind⟩ := ih hrest
          exact ⟨_, rest, u, rfl, .simple hsimple hrun hfirst, hbehind⟩
      | compound hparts hinner hrest =>
          obtain ⟨first, rest, u, rfl, hfirst, hbehind⟩ := ih hrest
          exact ⟨_, rest, u, by simp, .compound hparts hinner hfirst, hbehind⟩
      | block hinner hrest =>
          obtain ⟨first, rest, u, rfl, hfirst, hbehind⟩ := ih hrest
          exact ⟨_, rest, u, by simp, .block hinner hfirst, hbehind⟩
      | skip hskip hrest =>
          obtain ⟨first, rest, u, rfl, hfirst, hbehind⟩ := ih hrest
          exact ⟨_, rest, u, rfl, .skip hskip hfirst, hbehind⟩
      | file hskip halign hinner hrest =>
          obtain ⟨first, rest, u, rfl, hfirst, hbehind⟩ := ih hrest
          exact ⟨_, rest, u, by simp, .file hskip halign hinner hfirst, hbehind⟩

/-- The trace of one statement begins where the statement starts and ends where it ends. -/
theorem Trace.bounds {st : Stmt} (h : Trace depth scope [.stmt st] s log t) :
    ∃ inner, log = ⟨.starts scope st, depth, s⟩ :: (inner ++ [⟨.ends st, depth, t⟩]) := by
  cases h with
  | simple _ _ hrest =>
      cases hrest
      exact ⟨[], rfl⟩
  | compound _ _ hrest | block _ hrest =>
      cases hrest
      exact ⟨_, rfl⟩
  | skip _ hrest =>
      cases hrest
      exact ⟨[], rfl⟩
  | @file _ _ labels file _ _ _ _ u _ inner _ _ _ _ hrest =>
      cases hrest
      exact ⟨⟨.enters file, depth, s.labelAll labels⟩ :: (inner ++ [⟨.leaves file, depth, t⟩]),
        by simp⟩

/-- Where a statement ends, the one behind it starts. -/
theorem Trace.next {st st' : Stmt} {u : State}
    (h : Trace depth scope ((items ++ [.stmt st]) ++ [.stmt st']) s log t)
    (hrun : emitAll (items ++ [.stmt st]) s = .ok ⟨⟩ u) :
    ∃ before scope' behind,
      log = before ++ ⟨.ends st, depth, u⟩ :: ⟨.starts scope' st', depth, u⟩ :: behind ∧
        stmt st' u = .ok ⟨⟩ t := by
  obtain ⟨front, last, v, rfl, hfront, hlast⟩ := h.split
  rw [hfront.run] at hrun
  cases hrun
  obtain ⟨others, one, w, rfl, -, hone⟩ := hfront.split
  obtain ⟨inner, rfl⟩ := hone.bounds
  obtain ⟨inner', rfl⟩ := hlast.bounds
  have hst' := hlast.run
  rw [emitAll] at hst'
  obtain ⟨_, t', hst', hdone⟩ := ok_bind hst'
  cases hdone
  exact ⟨others ++ ⟨.starts (items.foldl Item.scope scope) st, depth, w⟩ :: inner,
    (items ++ [Item.stmt st]).foldl Item.scope scope, inner' ++ [⟨.ends st', depth, t⟩],
    by simp, hst'⟩

/-- Each statement that starts among some events has a trace of its own, whose events are among
those of a log. -/
def OwnTraces (events log : List Event) : Prop :=
  ∀ e ∈ events, ∀ around st, e.moment = .starts around st →
    ∃ part u, Trace e.depth around [.stmt st] e.state part u ∧ part ⊆ log

section OwnTraces

variable {events events' log' : List Event} {e : Event}

theorem OwnTraces.mono (h : OwnTraces events log) (hsub : log ⊆ log') : OwnTraces events log' := by
  intro e he around st hmoment
  obtain ⟨part, u, hpart, hlog⟩ := h e he around st hmoment
  exact ⟨part, u, hpart, List.Subset.trans hlog hsub⟩

/-- Traces of the parts are traces inside the whole. -/
theorem OwnTraces.append (h : OwnTraces events log) (h' : OwnTraces events' log) :
    OwnTraces (events ++ events') log :=
  List.forall_mem_append.mpr ⟨h, h'⟩

/-- An event that is not the start of a statement. -/
theorem OwnTraces.other (hmoment : ∀ around st, e.moment ≠ .starts around st)
    (h : OwnTraces events log) : OwnTraces (e :: events) log :=
  List.forall_mem_cons.mpr ⟨fun around st heq => absurd heq (hmoment around st), h⟩

/-- The event of a statement has the trace of that statement. -/
theorem OwnTraces.start {st : Stmt} {part : List Event} {u : State}
    (hpart : Trace depth scope [.stmt st] s part u) (hsub : part ⊆ log)
    (h : OwnTraces events log) : OwnTraces (⟨.starts scope st, depth, s⟩ :: events) log := by
  refine List.forall_mem_cons.mpr ⟨fun around st' hmoment => ?_, h⟩
  cases hmoment
  exact ⟨part, u, hpart, hsub⟩

end OwnTraces

/-- Where a statement starts, a trace of it starts that is part of the whole one. -/
theorem Trace.inner (h : Trace depth scope items s log t) : OwnTraces log log := by
  induction h with
  | done => exact fun e he => nomatch he
  | @glue _ _ code _ _ _ _ _ _ _ ih =>
      refine OwnTraces.append (fun e he around st hmoment => ?_)
        (ih.mono (List.subset_append_right _ _))
      cases code <;> simp only [Glue.events, List.mem_singleton, List.not_mem_nil] at he
      rw [he] at hmoment
      cases hmoment
  | simple hsimple hrun _ ih =>
      refine .start (.simple hsimple hrun .done) (by simp) (.other (by simp) (ih.mono ?_))
      exact fun x hx => by simp [hx]
  | compound hparts hinner _ ih ih' =>
      refine .start (.compound hparts hinner .done) (by simp)
        ((ih.mono ?_).append (.other (by simp) (ih'.mono ?_)))
      all_goals exact fun x hx => by simp [hx]
  | block hinner _ ih ih' =>
      refine .start (.block hinner .done) (by simp)
        ((ih.mono ?_).append (.other (by simp) (ih'.mono ?_)))
      all_goals exact fun x hx => by simp [hx]
  | skip hskip _ ih =>
      refine .start (.skip hskip .done) (by simp) (.other (by simp) (ih.mono ?_))
      exact fun x hx => by simp [hx]
  | file hskip halign hinner _ ih ih' =>
      refine .start (.file hskip halign hinner .done) (fun x hx => ?_)
        (.other (by simp) ((ih.mono ?_).append (.other (by simp) (.other (by simp) (ih'.mono ?_)))))
      · simp only [List.mem_cons, List.mem_append, List.not_mem_nil, or_false] at hx ⊢
        rcases hx with hx | hx | hx | hx | hx <;> simp [hx]
      all_goals exact fun x hx => by simp [hx]

/-- A statement that places a file is skipped, or the file is entered. -/
theorem Trace.skips_or_enters (h : Trace depth scope items s log t) {e : Event} (he : e ∈ log)
    {around : List Variable} {st : Stmt} {file : Program} (hmoment : e.moment = .starts around st)
    (hplace : st.action = .place file) : e.state.skips file = true ∨ Enters log file := by
  obtain ⟨part, u, hpart, hsub⟩ := h.inner e he around st hmoment
  cases st with
  | mk labels act site =>
      cases hplace
      cases hpart with
      | simple hsimple _ _ => cases hsimple
      | compound hparts _ _ => cases hparts
      | skip hskip _ => exact Or.inl hskip
      | file _ _ _ _ => 
          exact Or.inr ⟨_, hsub (List.mem_cons_of_mem _ List.mem_cons_self), rfl⟩

end Trace

/-! ## Copies of files

A file may be entered more than once, and each time it is emitted as a copy of its own.  `Copied`
ties the event of entering to the events of the copy behind it. -/

/-- A log that is cut at an event is cut in its first part or in its second one. -/
theorem split_append {α : Type} {a b before behind : List α} {x : α}
    (h : a ++ b = before ++ x :: behind) :
    (∃ more, a = before ++ x :: more ∧ behind = more ++ b) ∨
      ∃ more, b = more ++ x :: behind ∧ before = a ++ more := by
  rcases List.append_eq_append_iff.mp h with ⟨more, hbefore, hb⟩ | ⟨more, ha, hbehind⟩
  · exact Or.inr ⟨more, hb, hbefore⟩
  · cases more with
    | nil => exact Or.inr ⟨[], by simpa using hbehind.symm, by simpa using ha.symm⟩
    | cons y more =>
        rw [List.cons_append, List.cons.injEq] at hbehind
        obtain ⟨rfl, rfl⟩ := hbehind
        exact Or.inl ⟨more, ha, rfl⟩

/-- The same, for a first part of one event. -/
theorem split_cons {α : Type} {b before behind : List α} {y x : α}
    (h : y :: b = before ++ x :: behind) :
    (before = [] ∧ y = x ∧ b = behind) ∨ ∃ more, before = y :: more ∧ b = more ++ x :: behind := by
  cases before with
  | nil =>
      rw [List.nil_append, List.cons.injEq] at h
      exact Or.inl ⟨rfl, h⟩
  | cons z before =>
      rw [List.cons_append, List.cons.injEq] at h
      exact Or.inr ⟨before, by rw [h.1], h.2⟩

/-- The events behind one at which a file is entered: first those of its statements, then that it
is left. -/
def Copied (file : Program) (e : Event) (behind : List Event) : Prop :=
  ∃ start inner u later, behind = inner ++ ⟨.leaves file, e.depth, u⟩ :: later ∧
    alignTo file.pragmas.align (e.state.reach file) = .ok ⟨⟩ start ∧
    Trace e.depth [] (file.statements.map .stmt) start inner u

theorem Copied.append {file : Program} {e : Event} {behind : List Event}
    (h : Copied file e behind) (more : List Event) : Copied file e (behind ++ more) := by
  obtain ⟨start, inner, u, later, rfl, halign, hinner⟩ := h
  exact ⟨start, inner, u, later ++ more, by simp, halign, hinner⟩

/-- Where a file is entered, its statements are emitted next. -/
theorem Trace.copied {depth : Nat} {scope : List Variable} {items : List Item} {s t : State}
    {log : List Event} (h : Trace depth scope items s log t) :
    ∀ before e behind file, log = before ++ e :: behind → e.moment = .enters file →
      Copied file e behind := by
  induction h with
  | done =>
      intro before e behind file hlog
      simp at hlog
  | @glue depth _ code _ s _ _ _ _ _ ih =>
      intro before e behind file hlog hmoment
      rcases split_append hlog with ⟨more, hcode, -⟩ | ⟨more, hrest, -⟩
      · have he : e ∈ code.events depth s := by simp [hcode]
        cases code <;> simp only [Glue.events, List.mem_singleton, List.not_mem_nil] at he
        rw [he] at hmoment
        cases hmoment
      · exact ih _ _ _ _ hrest hmoment
  | simple _ _ _ ih | skip _ _ ih =>
      intro before e behind file hlog hmoment
      rcases split_cons hlog with ⟨-, rfl, -⟩ | ⟨more, -, hlog⟩
      · cases hmoment
      rcases split_cons hlog with ⟨-, rfl, -⟩ | ⟨more, -, hlog⟩
      · cases hmoment
      · exact ih _ _ _ _ hlog hmoment
  | compound _ _ _ ih ih' | block _ _ ih ih' =>
      intro before e behind file hlog hmoment
      rcases split_cons hlog with ⟨-, rfl, -⟩ | ⟨more, -, hlog⟩
      · cases hmoment
      rcases split_append hlog with ⟨more, hinner, rfl⟩ | ⟨more, hlog, -⟩
      · exact (ih _ _ _ _ hinner hmoment).append _
      rcases split_cons hlog with ⟨-, rfl, -⟩ | ⟨more, -, hlog⟩
      · cases hmoment
      · exact ih' _ _ _ _ hlog hmoment
  | file _ halign hinner _ ih ih' =>
      intro before e behind file hlog hmoment
      rcases split_cons hlog with ⟨-, rfl, -⟩ | ⟨more, -, hlog⟩
      · cases hmoment
      rcases split_cons hlog with ⟨-, rfl, rfl⟩ | ⟨more, -, hlog⟩
      · cases hmoment
        exact ⟨_, _, _, _, rfl, halign, hinner⟩
      rcases split_append hlog with ⟨more, hinner, rfl⟩ | ⟨more, hlog, -⟩
      · exact (ih _ _ _ _ hinner hmoment).append _
      rcases split_cons hlog with ⟨-, rfl, -⟩ | ⟨more, -, hlog⟩
      · cases hmoment
      rcases split_cons hlog with ⟨-, rfl, -⟩ | ⟨more, -, hlog⟩
      · cases hmoment
      · exact ih' _ _ _ _ hlog hmoment

end Emit

end ByteJump
