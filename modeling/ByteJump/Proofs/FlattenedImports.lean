import ByteJump.Proofs.Emit.Labels

set_option autoImplicit false

/-!
# Flattened imports

What is emitted is the text of a program with all imports written out, depth first and in order.  A
file that is placed once is written out where it is imported first, from whichever file or block,
and nowhere behind that; a file that is placed more than once is written out wherever it is
imported, also inside other files that are written out again.

`Stmt.flatten` and its companions write imports out, with the list of files that were written so
far as their only state; they know nothing of code.  `started` picks from the log of an emission
the statements that started.  That both give the same list goes by induction on traces: a file is
skipped by the one if it is by the other, since both keep the same list of files.  The rest of the
module is about when a file is entered: once if it is placed once, and exactly if the program
imports it.
-/

namespace ByteJump

/-! ## Writing out imports -/

/-- Statements written out, where the files with some paths were written out before. -/
abbrev Flattening : Type := StateM (List Path.Key) (List Stmt)

mutual

/-- A statement, and behind it those inside it or in the file it imports. -/
def Stmt.flatten : Stmt → Flattening
  | .mk labels act site => do return .mk labels act site :: (← act.flatten)

/-- Statements in order. -/
def Stmt.listFlatten : List Stmt → Flattening
  | [] => return []
  | st :: ss => do return (← st.flatten) ++ (← Stmt.listFlatten ss)

/-- The statements of an optional one. -/
def Stmt.optionFlatten : Option Stmt → Flattening
  | none => return []
  | some st => st.flatten

/-- The statements inside an action or in the file it places. -/
def Action.flatten : Action → Flattening
  | .place file => file.flatten
  | .block body => Stmt.listFlatten body
  | .branch _ taken otherwise => do
      return (← taken.flatten) ++ (← Stmt.optionFlatten otherwise)
  | .loop _ body _ => body.flatten
  | .nothing | .evaluate _ | .goto _ | .define .. | .reserve _ | .assign .. | .words _ => return []

/-- The statements of a file, unless it is placed once and was written out before. -/
def Program.flatten : Program → Flattening
  | .mk path statements _ pragmas => do
      if pragmas.multi then Stmt.listFlatten statements
      else if (← get).contains path.key then return []
      else do
        modify (path.key :: ·)
        Stmt.listFlatten statements

end

/-- The statements of a program with all imports written out. -/
def Program.flattened (p : Program) : List Stmt := ((Stmt.listFlatten p.statements).run []).1

/-- A program imports a file, directly or through others. -/
def Program.Imports (p q : Program) : Prop := Relation.TransGen (fun p q => q ∈ p.files) p q

/-- An imported file is a part of the program. -/
theorem Program.Imports.sizeOf_lt {p q : Program} (h : p.Imports q) : sizeOf q < sizeOf p := by
  induction h with
  | single hfile => exact Program.sizeOf_files hfile
  | tail _ hfile ih => exact Nat.lt_trans (Program.sizeOf_files hfile) ih

namespace Emit

open Assembly Memory

/-! ## Items

The parts of a compound statement are written out in order, and points and jumps between them are
nothing to write. -/

/-- The statements of an item. -/
def Item.flatten : Item → Flattening
  | .glue _ => return []
  | .stmt st => st.flatten

/-- The statements of items in order. -/
def Item.listFlatten : List Item → Flattening
  | [] => return []
  | item :: items => do return (← item.flatten) ++ (← Item.listFlatten items)

/-- Statements as items are written out as they are. -/
theorem Item.listFlatten_map (ss : List Stmt) :
    Item.listFlatten (ss.map .stmt) = Stmt.listFlatten ss := by
  induction ss with
  | nil => rw [Stmt.listFlatten, List.map_nil, Item.listFlatten]
  | cons st ss ih =>
      rw [List.map_cons, Item.listFlatten, Stmt.listFlatten, ih]
      rfl

/-- The parts of an action are written out as the action is. -/
theorem parts_flatten {serial : Nat} {act : Action} {items : List Item}
    (h : parts serial act = some items) : Item.listFlatten items = act.flatten := by
  cases act with
  | branch condition taken otherwise =>
      cases otherwise <;> cases h <;>
        simp [Item.listFlatten, Item.flatten, Action.flatten, Stmt.optionFlatten]
  | loop condition body bodyFirst =>
      cases bodyFirst <;> cases h <;> simp [Item.listFlatten, Item.flatten, Action.flatten]
  | nothing | place _ | evaluate _ | goto _ | define _ _ | reserve _ | assign _ _ | block _
  | words _ => cases h

/-- A simple action holds nothing to write out. -/
theorem flatten_of_simple {act : Action} (h : isSimple act = true) : act.flatten = pure [] := by
  cases act <;> first | rfl | cases h

section Runs

variable {seen seen' seen'' : List Path.Key} {as bs : List Stmt}

/-- What is written first comes first. -/
theorem run_flatten_append {x y : Flattening} (hx : x.run seen = (as, seen'))
    (hy : y.run seen' = (bs, seen'')) :
    (do return (← x) ++ (← y) : Flattening).run seen = (as ++ bs, seen'') := by
  show ((x.run seen).1 ++ (y.run (x.run seen).2).1, (y.run (x.run seen).2).2) = _
  rw [hx]
  show (as ++ (y.run seen').1, (y.run seen').2) = _
  rw [hy]

theorem run_flatten_stmt {labels : List Label} {act : Action} {site : Location} {items : List Item}
    (hact : act.flatten.run seen = (as, seen'))
    (hitems : (Item.listFlatten items).run seen' = (bs, seen'')) :
    (Item.listFlatten (.stmt (.mk labels act site) :: items)).run seen =
      (.mk labels act site :: (as ++ bs), seen'') := by
  have hstmt : (Stmt.flatten (.mk labels act site)).run seen =
      (.mk labels act site :: as, seen') := by
    simp only [Stmt.flatten, StateT.run_bind, hact]
    rfl
  exact run_flatten_append hstmt hitems

/-- A file that was placed before is not written out again. -/
theorem run_flatten_skip {s : State} {file : Program} (h : s.skips file = true) :
    file.flatten.run s.placed = ([], s.placed) := by
  cases file with
  | mk path statements exports pragmas =>
      obtain ⟨hmulti, hplaced⟩ : (!pragmas.multi) = true ∧ s.placed.contains path.key = true :=
        Bool.and_eq_true_iff.mp h
      rw [Bool.not_eq_true'] at hmulti
      simp only [Program.flatten, hmulti, Bool.false_eq_true, if_false, StateT.run_bind]
      show ((if s.placed.contains path.key = true then _ else _ : Flattening).run s.placed) = _
      rw [if_pos hplaced]
      rfl

/-- A file that is entered is written out. -/
theorem run_flatten_file {s : State} {file : Program} (h : s.skips file = false) :
    file.flatten.run s.placed = (Stmt.listFlatten file.statements).run (s.reach file).placed := by
  cases file with
  | mk path statements exports pragmas =>
      unfold State.skips at h
      unfold State.reach
      cases hmulti : pragmas.multi with
      | true => simp [Program.flatten, Program.pragmas, Program.statements, hmulti]
      | false =>
          have hplaced : s.placed.contains path.key = false := by
            simpa [Program.pragmas, Program.file, hmulti] using h
          simp only [Program.flatten, Program.pragmas, hmulti, Bool.false_eq_true, if_false,
            StateT.run_bind]
          show ((if s.placed.contains path.key = true then _ else _ : Flattening).run s.placed) = _
          rw [hplaced]
          rfl

end Runs

/-! ## What starts along a trace -/

/-- The statement that starts at an event. -/
def Event.started? (e : Event) : Option Stmt :=
  match e.moment with
  | .starts _ st => some st
  | .ends _ | .enters _ | .leaves _ | .reaches _ => none

/-- The statements that start, in order. -/
def started (log : List Event) : List Stmt := log.filterMap Event.started?

@[simp]
theorem started_cons_starts (scope : List Variable) (st : Stmt) (depth : Nat) (s : State)
    (log : List Event) : started (⟨.starts scope st, depth, s⟩ :: log) = st :: started log := rfl

@[simp]
theorem started_cons_ends (st : Stmt) (depth : Nat) (s : State) (log : List Event) :
    started (⟨.ends st, depth, s⟩ :: log) = started log := rfl

@[simp]
theorem started_cons_enters (file : Program) (depth : Nat) (s : State) (log : List Event) :
    started (⟨.enters file, depth, s⟩ :: log) = started log := rfl

@[simp]
theorem started_cons_leaves (file : Program) (depth : Nat) (s : State) (log : List Event) :
    started (⟨.leaves file, depth, s⟩ :: log) = started log := rfl

/-- What starts in both parts. -/
@[simp]
theorem started_append (log log' : List Event) :
    started (log ++ log') = started log ++ started log' := List.filterMap_append

/-- No statement starts between statements. -/
@[simp]
theorem started_glue (code : Glue) (depth : Nat) (s : State) :
    started (code.events depth s) = [] := by
  cases code <;> rfl

/-- Along a trace the statements of its items start with all imports written out, beginning with
the files that are placed at the first state. -/
theorem Trace.flattened {m depth : Nat} {scope : List Variable} {items : List Item} {s t : State}
    {log : List Event} (h : Trace depth scope items s log t) (htaken : Taken m s) :
    (Item.listFlatten items).run s.placed = (started log, t.placed) := by
  induction h with
  | done => rfl
  | @glue depth scope code items s t u log hrun _ ih =>
      have hglue := Glue.stretch depth htaken hrun
      have hplaced : t.placed = s.placed := by
        rw [hglue.placed]
        cases code <;> rfl
      have hrest := ih hglue.taken
      rw [hplaced] at hrest
      rw [started_append, started_glue, List.nil_append]
      exact run_flatten_append rfl hrest
  | @simple depth scope labels act site items s t u log hsimple hrun _ ih =>
      have hact := action_simple hsimple (htaken.labelAll labels) hrun
      have hrest := ih hact.taken
      rw [hact.placed, State.placed_labelAll] at hrest
      rw [started_cons_starts, started_cons_ends, ← List.nil_append (started log)]
      refine run_flatten_stmt ?_ hrest
      rw [flatten_of_simple hsimple]
      rfl
  | @compound depth scope labels act site inner items s t u log log' hparts htrace _ ih ih' =>
      have htaken' := htaken.labelAll labels
      have hinner := ih htaken'
      rw [State.placed_labelAll, parts_flatten hparts] at hinner
      rw [started_cons_starts, started_append, started_cons_ends]
      exact run_flatten_stmt hinner (ih' (htrace.passes htaken').whole.taken)
  | @block depth scope labels body site items s t u log log' htrace _ ih ih' =>
      have htaken' := htaken.labelAll labels
      have hinner := ih htaken'
      have hreleased := Stretch.of_released (htrace.passes htaken').whole.taken htaken.mark
        htaken.count
      rw [State.placed_labelAll, Item.listFlatten_map] at hinner
      rw [started_cons_starts, started_append, started_cons_ends]
      exact run_flatten_stmt hinner (ih' hreleased.taken)
  | @skip depth scope labels file site items s u log hskip _ ih =>
      have hrest := ih (htaken.labelAll labels)
      rw [State.placed_labelAll] at hrest
      rw [started_cons_starts, started_cons_ends, ← List.nil_append (started log)]
      exact run_flatten_stmt (run_flatten_skip hskip) hrest
  | @file depth scope labels file site items s t u w log log' hskip halign htrace _ ih ih' =>
      have hlabels := htaken.labelAll labels
      have henters := Stretch.enters hlabels file depth
      have hstart := (Calm.stretch (alignTo_calm _) henters.taken halign).1
      have hinner := ih hstart.taken
      -- only reaching the file changes which files are placed
      have hplaced : t.placed = (s.reach file).placed := by
        rw [hstart.placed]
        unfold State.reach
        split
        · exact State.placed_labelAll labels s
        · show _ :: (s.labelAll labels).placed = _ :: s.placed
          rw [State.placed_labelAll]
      rw [hplaced, Item.listFlatten_map] at hinner
      rw [started_cons_starts, started_cons_enters, started_append, started_cons_leaves,
        started_cons_ends]
      refine run_flatten_stmt ((run_flatten_file hskip).trans hinner) ?_
      exact ih' (htrace.passes hstart.taken).whole.taken

/-! ## Where events are

Each event is noted at the position of the code so far, so positions go up along the log. -/

/-- The code grows from one state to another and from event to event in between. -/
structure Ascends (s : State) (log : List Event) (t : State) : Prop where
  whole : s.position ≤ t.position
  above : ∀ e ∈ log, s.position ≤ e.state.position
  below : ∀ e ∈ log, e.state.position ≤ t.position
  order : (log.map fun e => e.state.position).Pairwise (· ≤ ·)

section Ascends

variable {m : Nat} {log log' : List Event} {s t u : State}

theorem Ascends.of_le (h : s.position ≤ t.position) : Ascends s [] t :=
  ⟨h, nofun, nofun, .nil⟩

/-- Positions go up in both parts, and from the first to the second. -/
theorem Ascends.trans (h : Ascends s log t) (h' : Ascends t log' u) :
    Ascends s (log ++ log') u where
  whole := Nat.le_trans h.whole h'.whole
  above := List.forall_mem_append.mpr
    ⟨h.above, fun e he => Nat.le_trans h.whole (h'.above e he)⟩
  below := List.forall_mem_append.mpr
    ⟨fun e he => Nat.le_trans (h.below e he) h'.whole, h'.below⟩
  order := by
    rw [List.map_append, List.pairwise_append]
    refine ⟨h.order, h'.order, fun a ha b hb => ?_⟩
    obtain ⟨e, he, rfl⟩ := List.mem_map.mp ha
    obtain ⟨e', he', rfl⟩ := List.mem_map.mp hb
    exact Nat.le_trans (h.below e he) (h'.above e' he')

/-- An event at the first state. -/
theorem Ascends.cons {e : Event} (he : e.state.position = s.position) (h : Ascends s log t) :
    Ascends s (e :: log) t := by
  have hone : Ascends s [e] s := ⟨Nat.le_refl _, by simp [he], by simp [he], by simp⟩
  exact hone.trans h

/-- By induction on the trace. -/
theorem Trace.ascends {depth : Nat} {scope : List Variable} {items : List Item}
    (h : Trace depth scope items s log t) (htaken : Taken m s) : Ascends s log t := by
  induction h with
  | done => exact .of_le (Nat.le_refl _)
  | @glue depth scope code items s t u log hrun _ ih =>
      have hglue := Glue.stretch depth htaken hrun
      refine Ascends.trans ?_ (ih hglue.taken)
      have hgrows : Ascends s [] t := .of_le hglue.spares.position_le
      cases code with
      | place role serial => exact hgrows.cons rfl
      | point _ | branch _ _ _ | jump _ => exact hgrows
  | @simple depth scope labels act site items s t u log hsimple hrun _ ih =>
      have hact := action_simple hsimple (htaken.labelAll labels) hrun
      have hle := hact.spares.position_le
      rw [position_labelAll] at hle
      exact ((Ascends.of_le hle).trans ((ih hact.taken).cons rfl)).cons rfl
  | @compound depth scope labels act site inner items s t u log log' _ htrace _ ih ih' =>
      have htaken' := htaken.labelAll labels
      have hrest := (ih' (htrace.passes htaken').whole.taken).cons
        (e := ⟨.ends (.mk labels act site), depth, t⟩) rfl
      have hinner := (ih htaken').trans hrest
      exact ((Ascends.of_le (position_labelAll s labels).ge).trans hinner).cons rfl
  | @block depth scope labels body site items s t u log log' htrace _ ih ih' =>
      have htaken' := htaken.labelAll labels
      have hreleased := Stretch.of_released (htrace.passes htaken').whole.taken htaken.mark
        htaken.count
      have hrest := (ih' hreleased.taken).cons
        (e := ⟨.ends (.mk labels (.block body) site), depth, t.released s.mark⟩) rfl
      have hmark : Ascends t [] (t.released s.mark) := .of_le (Nat.le_refl _)
      have hinner := (ih htaken').trans (hmark.trans hrest)
      exact ((Ascends.of_le (position_labelAll s labels).ge).trans hinner).cons rfl
  | @skip depth scope labels file site items s u log _ _ ih =>
      have hrest := (ih (htaken.labelAll labels)).cons
        (e := ⟨.ends (.mk labels (.place file) site), depth, s.labelAll labels⟩) rfl
      exact ((Ascends.of_le (position_labelAll s labels).ge).trans hrest).cons rfl
  | @file depth scope labels file site items s t u w log log' _ halign htrace _ ih ih' =>
      have hlabels := htaken.labelAll labels
      have henters := Stretch.enters hlabels file depth
      have hstart := (Calm.stretch (alignTo_calm _) henters.taken halign).1
      have hgrows : Ascends (s.labelAll labels) [] t :=
        .of_le (Nat.le_trans henters.spares.position_le hstart.spares.position_le)
      have hrest := ((ih' (htrace.passes hstart.taken).whole.taken).cons
        (e := ⟨.ends (.mk labels (.place file) site), depth, u⟩) rfl).cons
        (e := ⟨.leaves file, depth, u⟩) rfl
      have hinner := (hgrows.trans ((ih hstart.taken).trans hrest)).cons
        (e := ⟨.enters file, depth, s.labelAll labels⟩) rfl
      exact ((Ascends.of_le (position_labelAll s labels).ge).trans hinner).cons rfl

end Ascends

/-! ## Files that are entered

A file that is placed once is noted as placed when it is entered, and skipped from then on. -/

/-- No file is entered where it is skipped. -/
theorem Trace.not_skips {depth : Nat} {scope : List Variable} {items : List Item} {s t : State}
    {log : List Event} (h : Trace depth scope items s log t) :
    ∀ e ∈ log, ∀ file, e.moment = .enters file → e.state.skips file = false := by
  induction h with
  | done => exact nofun
  | glue _ _ ih =>
      refine List.forall_mem_append.mpr ⟨fun e he file hmoment => ?_, ih⟩
      exact (not_enters_glue ⟨e, he, hmoment⟩).elim
  | simple _ _ _ ih | skip _ _ ih =>
      exact List.forall_mem_cons.mpr ⟨nofun, List.forall_mem_cons.mpr ⟨nofun, ih⟩⟩
  | compound _ _ _ ih ih' | block _ _ ih ih' =>
      exact List.forall_mem_cons.mpr ⟨nofun, List.forall_mem_append.mpr
        ⟨ih, List.forall_mem_cons.mpr ⟨nofun, ih'⟩⟩⟩
  | @file _ _ labels placed _ _ s _ _ _ _ _ hskip _ _ _ ih ih' =>
      refine List.forall_mem_cons.mpr ⟨nofun, List.forall_mem_cons.mpr ⟨?_,
        List.forall_mem_append.mpr ⟨ih, List.forall_mem_cons.mpr ⟨nofun,
          List.forall_mem_cons.mpr ⟨nofun, ih'⟩⟩⟩⟩⟩
      intro file hmoment
      cases hmoment
      rw [State.skips_labelAll]
      exact hskip

/-- A file is entered at one event, and no file with its path at any other. -/
def EntersOnce (log : List Event) (q : Program) : Prop :=
  ∃ before e behind, log = before ++ e :: behind ∧ e.moment = .enters q ∧
    ∀ x ∈ before ++ behind, ∀ file, x.moment = .enters file → file.file.key ≠ q.file.key

section Emission

variable {G : Program → Prop} {turn : Nat} {p q : Program} {b : Bindings} {log : List Event}
  {t : State} {artifact : Artifact}

/-- Two files that are placed once and entered one after the other have different paths. -/
theorem Emission.not_enters_again (h : Emission p b log t artifact) {before behind : List Event}
    {e e' : Event} (hlog : log = before ++ e :: behind) (he' : e' ∈ before) {file other : Program}
    (hmoment : e.moment = .enters file) (hmoment' : e'.moment = .enters other)
    (hmulti : file.pragmas.multi = false) (hmulti' : other.pragmas.multi = false) :
    other.file.key ≠ file.file.key := by
  intro hkey
  have hskips := h.trace.not_skips e (by simp [hlog]) file hmoment
  have hplaced : e.state.placed.contains file.file.key = true := by
    rw [(h.passes.upTo before e behind hlog).placed]
    have hmem : file.file.key ∈ before.flatMap Event.placed :=
      List.mem_flatMap.mpr ⟨e', he', by simp [Event.placed, hmoment', hmulti', hkey]⟩
    simp [hmem]
  rw [State.skips, hmulti, hplaced] at hskips
  cases hskips

/-- A file that is placed once is entered once if at all. -/
theorem Emission.entersOnce (hG : Library G) (hrooted : Rooted G (.main turn) p)
    (h : Emission p b log t artifact) (hq : Enters log q) (hmulti : q.pragmas.multi = false) :
    EntersOnce log q := by
  have hGq := (h.trace.enters_below hG hrooted.hosts q hq).1
  obtain ⟨e, he, hmoment⟩ := hq
  obtain ⟨before, behind, rfl⟩ := List.append_of_mem he
  refine ⟨before, e, behind, rfl, hmoment, fun x hx file hfile hkey => ?_⟩
  have hmem : x ∈ before ++ e :: behind := by
    rcases List.mem_append.mp hx with hx | hx <;> simp [hx]
  have hGfile := (h.trace.enters_below hG hrooted.hosts file ⟨x, hmem, hfile⟩).1
  obtain rfl := hG.unique file q hGfile hGq hkey
  rcases List.mem_append.mp hx with hx | hx
  · exact h.not_enters_again rfl hx hmoment hfile hmulti hmulti rfl
  · obtain ⟨front, rest, rfl⟩ := List.append_of_mem hx
    have hlog : before ++ e :: (front ++ x :: rest) = (before ++ e :: front) ++ x :: rest := by simp
    exact h.not_enters_again hlog (by simp) hfile hmoment hmulti hmulti rfl

/-- The files that are entered are those that are imported, directly or through others. -/
theorem Emission.enters_iff (hG : Library G) (hrooted : Rooted G (.main turn) p)
    (h : Emission p b log t artifact) : Enters log q ↔ p.Imports q := by
  constructor
  · intro hq
    refine h.trace.enters_of (P := p.Imports) (fun file hfile other hother => hfile.tail hother)
      (fun st hst file hplace => ?_) q hq
    rw [flatMap_subs_map] at hst
    exact .single (mem_files hst hplace)
  · intro hq
    rcases h.includes hG hrooted hq.to_reflTransGen with rfl | henters
    · exact absurd hq.sizeOf_lt (Nat.lt_irrefl _)
    · exact henters

end Emission

end Emit

namespace Session

open Assembly Emit

/-- The statements that are emitted for an accepted program are those of the program with all its
imports written out, in that order, at addresses that never go down.  The files that are entered on
the way are those that are imported, directly or through others; each file that is placed once is
entered once, and no statement of any of them is lost. -/
theorem emits_flattened (source : FileSource) (dirs : List Path)
    (mains : List (Syntax.Program × Path)) (tree : Syntax.Program) (file : Path) (b : Bindings)
    {p : Program} {artifact : Artifact}
    (hresolve : ((afterMains source dirs mains).resolve tree file).1 = .ok p)
    (hgenerate : (p.generate b).1 = .ok artifact) :
    ∃ log t, Emission p b log t artifact ∧
      started log = p.flattened ∧
      (log.map fun e => e.state.position).Pairwise (· ≤ ·) ∧
      (∀ q, Enters log q ↔ p.Imports q) ∧
      (∀ q, p.Imports q → q.pragmas.multi = false → EntersOnce log q) ∧
      ∀ q, p.Includes q → ∀ st ∈ Stmt.listSubs q.statements, st ∈ p.flattened := by
  obtain ⟨G, turn, hG, hrooted⟩ := rooted_of_resolve hresolve
  obtain ⟨log, t, h⟩ := emission_of_generate hgenerate
  have hflattened : started log = p.flattened := by
    have hrun := h.trace.flattened (taken_start b)
    rw [Item.listFlatten_map] at hrun
    exact (congrArg Prod.fst hrun).symm
  refine ⟨log, t, h, hflattened, (h.trace.ascends (taken_start b)).order,
    fun q => h.enters_iff hG hrooted, fun q hq hmulti => ?_, fun q hq st hst => ?_⟩
  · exact h.entersOnce hG hrooted ((h.enters_iff hG hrooted).mpr hq) hmulti
  · obtain ⟨e, he, scope, hmoment⟩ := h.starts (h.includes hG hrooted hq) st hst
    rw [← hflattened]
    exact List.mem_filterMap.mpr ⟨e, he, by rw [Event.started?, hmoment]⟩

/-- A file that is imported from two others and from a file that is placed twice. -/
theorem emits_flattened_diamond :
    let shared : Syntax.Program := [.mk [⟨".shared", false, .zero⟩] (.block []) .zero]
    let again : Syntax.Program :=
      [.mk [] (.pragma ⟨"multi", .zero⟩ none) .zero,
        .mk [] (.importFile ⟨"shared", .zero⟩) .zero]
    let side : Syntax.Program := [.mk [] (.importFile ⟨"again", .zero⟩) .zero]
    let files : MemoryFiles :=
      [(⟨"src/shared"⟩, shared), (⟨"src/again"⟩, again), (⟨"src/side"⟩, side)]
    let tree : Syntax.Program :=
      [.mk [] (.block [.mk [] (.importFile ⟨"side", .zero⟩) .zero]) .zero,
        .mk [] (.importFile ⟨"again", .zero⟩) .zero,
        .mk [] (.importFile ⟨"shared", .zero⟩) .zero]
    ∃ p artifact,
      ((afterMains files.source [⟨"src"⟩] []).resolve tree ⟨"main"⟩).1 = .ok p ∧
      (p.generate .none).1 = .ok artifact ∧ ∃ log t, Emission p .none log t artifact ∧
        started log = p.flattened ∧
        (log.map fun e => e.state.position).Pairwise (· ≤ ·) ∧
        (∀ q, Enters log q ↔ p.Imports q) ∧
        (∀ q, p.Imports q → q.pragmas.multi = false → EntersOnce log q) ∧
        ∀ q, p.Includes q → ∀ st ∈ Stmt.listSubs q.statements, st ∈ p.flattened := by
  intro shared again side files tree
  have haccepted : accepted ((afterMains files.source [⟨"src"⟩] []).resolve tree ⟨"main"⟩).1
      .none = true := by decide +kernel
  obtain ⟨p, artifact, hresolve, hgenerate⟩ := exists_of_accepted haccepted
  exact ⟨p, artifact, hresolve, hgenerate, emits_flattened files.source [⟨"src"⟩] [] tree ⟨"main"⟩
    .none hresolve hgenerate⟩

end Session

end ByteJump
