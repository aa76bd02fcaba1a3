import ByteJump.Proofs.Emit.Calm
import ByteJump.Proofs.Scope

set_option autoImplicit false

/-!
# Traces of emission

Emitting statements goes through all statements inside them and through those of the files they
import.  A trace lists what happens on the way, in order: where each statement starts and ends, where
the code of a file starts and ends, and where points are placed, each with the state at that moment.
Every emission that ends well has a trace, and a trace is one of an emission that ends well, so what
holds along traces holds of all that is emitted.

The definitions say what emission does in terms of items: a compound statement is a list of them,
its parts, with the points, branches and jumps between the statements as glue.  `Trace` then has
one rule for each kind of item and one for each kind of statement.  The two theorems at the end
are the correspondence: `trace_of_run` by induction on the program, and its converse `Trace.run`
by induction on the trace.
-/

namespace ByteJump

namespace Emit

open Assembly Memory

/-! ## Parts of statements

The parts depend on the number of points at the start of the statement, since its own points are
numbered from there on. -/

/-- The code around the statements inside a statement. -/
inductive Glue where
  | point (role : String)
  | branch (condition : Expr) (taken otherwise : Target)
  | jump (target : Target)
  | place (role : String) (serial : Nat)

/-- A statement, or the code around statements. -/
inductive Item where
  | glue (code : Glue)
  | stmt (st : Stmt)

/-- The code of one part of a statement. -/
def Glue.emit : Glue → Emitter Unit
  | .point role => do let _ ← newPoint role
  | .branch condition taken otherwise => Emit.branch condition taken otherwise
  | .jump target => jumpTo target
  | .place role serial => Emit.place (.point role serial)

/-- The code of an item. -/
def Item.emit : Item → Emitter Unit
  | .glue code => code.emit
  | .stmt st => Emit.stmt st

/-- The code of items in order. -/
def emitAll : List Item → Emitter Unit
  | [] => return ()
  | item :: items => do
      item.emit
      emitAll items

/-- The parts of a condition or a loop, where there are `serial` points so far. -/
def parts (serial : Nat) : Action → Option (List Item)
  | .branch condition taken none =>
      some [.glue (.point "if.then"), .glue (.point "if.end"),
        .glue (.branch condition (.point "if.then" (serial + 1)) (.point "if.end" (serial + 2))),
        .glue (.place "if.then" (serial + 1)), .stmt taken, .glue (.place "if.end" (serial + 2))]
  | .branch condition taken (some other) =>
      some [.glue (.point "if.then"), .glue (.point "if.end"), .glue (.point "if.else"),
        .glue (.branch condition (.point "if.then" (serial + 1)) (.point "if.else" (serial + 3))),
        .glue (.place "if.then" (serial + 1)), .stmt taken,
        .glue (.jump (.point "if.end" (serial + 2))), .glue (.place "if.else" (serial + 3)),
        .stmt other, .glue (.place "if.end" (serial + 2))]
  | .loop condition body false =>
      some [.glue (.point "while.top"), .glue (.point "while.body"), .glue (.point "while.end"),
        .glue (.place "while.top" (serial + 1)),
        .glue (.branch condition (.point "while.body" (serial + 2))
          (.point "while.end" (serial + 3))),
        .glue (.place "while.body" (serial + 2)), .stmt body,
        .glue (.jump (.point "while.top" (serial + 1))), .glue (.place "while.end" (serial + 3))]
  | .loop condition body true =>
      some [.glue (.point "do.top"), .glue (.point "do.end"),
        .glue (.place "do.top" (serial + 1)), .stmt body,
        .glue (.branch condition (.point "do.top" (serial + 1)) (.point "do.end" (serial + 2))),
        .glue (.place "do.end" (serial + 2))]
  | .nothing | .place _ | .evaluate _ | .goto _ | .define .. | .reserve _ | .assign .. | .block _
  | .words _ => none

/-- There is no statement inside the action, nor a file. -/
def isSimple : Action → Bool
  | .nothing | .evaluate _ | .goto _ | .define .. | .reserve _ | .assign .. | .words _ => true
  | .place _ | .block _ | .branch .. | .loop .. => false

/-! ## States on the way

Labels are bound, a file is entered and registers are given back between one piece of code and the
next.  Each of these is a function on states. -/

namespace State

/-- A label placed here. -/
def label (s : State) (l : Label) : State :=
  { s with
    bindings := s.bindings.place l s.position,
    entry := if isEntry l then s.entry <|> some s.position else s.entry }

/-- Labels placed here. -/
def labelAll (s : State) (labels : List Label) : State := labels.foldl label s

/-- The file was placed before and is not placed again. -/
def skips (s : State) (file : Program) : Bool :=
  !file.pragmas.multi && s.placed.contains file.file.key

/-- A file that is about to be placed. -/
def reach (s : State) (file : Program) : State :=
  if file.pragmas.multi then s else { s with placed := file.file.key :: s.placed }

/-- The registers from a mark on are free again. -/
def released (s : State) (mark : Nat) : State := { s with mark := mark }

/-- Labels take no registers. -/
theorem mark_labelAll (labels : List Label) : ∀ s : State, (s.labelAll labels).mark = s.mark := by
  induction labels with
  | nil => exact fun s => rfl
  | cons l labels ih => exact fun s => ih (s.label l)

theorem serial_labelAll (labels : List Label) :
    ∀ s : State, (s.labelAll labels).serial = s.serial := by
  induction labels with
  | nil => exact fun s => rfl
  | cons l labels ih => exact fun s => ih (s.label l)

theorem placed_labelAll (labels : List Label) :
    ∀ s : State, (s.labelAll labels).placed = s.placed := by
  induction labels with
  | nil => exact fun s => rfl
  | cons l labels ih => exact fun s => ih (s.label l)

/-- Labels do not place a file. -/
theorem skips_labelAll (s : State) (labels : List Label) (file : Program) :
    (s.labelAll labels).skips file = s.skips file := by
  unfold skips
  rw [placed_labelAll]

end State

theorem position_reach (s : State) (q : Program) : (s.reach q).position = s.position := by
  unfold State.reach
  split <;> rfl

/-- Entering a file adds no code by itself. -/
theorem pieces_reach (s : State) (q : Program) : (s.reach q).pieces = s.pieces := by
  unfold State.reach
  split <;> rfl

/-- Placing labels binds them all here. -/
theorem run_forM_placeLabel (labels : List Label) :
    ∀ s : State, labels.forM placeLabel s = .ok ⟨⟩ (s.labelAll labels) := by
  induction labels with
  | nil => exact fun s => rfl
  | cons l labels ih =>
      intro s
      show (placeLabel l >>= fun _ => labels.forM placeLabel) s = _
      rw [run_bind (show placeLabel l s = .ok ⟨⟩ (s.label l) from rfl), ih]
      rfl

/-- The labels are placed, and then the action runs. -/
theorem run_stmt (labels : List Label) (act : Action) (site : Location) (s : State) :
    stmt (.mk labels act site) s = action act (s.labelAll labels) := by
  rw [stmt, run_bind (run_forM_placeLabel labels s)]

/-! ## Traces -/

/-- What happens at a moment of emission. -/
inductive Moment where
  /-- a statement starts, with some variables in scope -/
  | starts (scope : List Variable) (st : Stmt)
  | ends (st : Stmt)
  /-- a file is about to be placed -/
  | enters (file : Program)
  | leaves (file : Program)
  /-- a point is placed -/
  | reaches (serial : Nat)

/-- A moment of emission, how many blocks are open, and the state. -/
structure Event where
  moment : Moment
  depth : Nat
  state : State

/-- What happens before the code of one part of a statement. -/
def Glue.events (depth : Nat) (s : State) : Glue → List Event
  | .place _ serial => [⟨.reaches serial, depth, s⟩]
  | .point _ | .branch .. | .jump _ => []

/-- Items are emitted where `depth` blocks are open and some variables are in scope, with what
happens from the first state to the second one. -/
inductive Trace : Nat → List Variable → List Item → State → List Event → State → Prop
  | done {depth : Nat} {scope : List Variable} {s : State} : Trace depth scope [] s [] s
  | glue {depth : Nat} {scope : List Variable} {code : Glue} {items : List Item} {s t u : State}
      {log : List Event} (hrun : code.emit s = .ok ⟨⟩ t) (hrest : Trace depth scope items t log u) :
      Trace depth scope (.glue code :: items) s (code.events depth s ++ log) u
  /-- a statement with no other inside -/
  | simple {depth : Nat} {scope : List Variable} {labels : List Label} {act : Action}
      {site : Location} {items : List Item} {s t u : State} {log : List Event}
      (hsimple : isSimple act = true) (hrun : action act (s.labelAll labels) = .ok ⟨⟩ t)
      (hrest : Trace depth (act.scope scope) items t log u) :
      Trace depth scope (.stmt (.mk labels act site) :: items) s
        (⟨.starts scope (.mk labels act site), depth, s⟩ ::
          ⟨.ends (.mk labels act site), depth, t⟩ :: log) u
  /-- a condition or a loop -/
  | compound {depth : Nat} {scope : List Variable} {labels : List Label} {act : Action}
      {site : Location} {inner items : List Item} {s t u : State} {log log' : List Event}
      (hparts : parts s.serial act = some inner)
      (hinner : Trace depth scope inner (s.labelAll labels) log t)
      (hrest : Trace depth (act.scope scope) items t log' u) :
      Trace depth scope (.stmt (.mk labels act site) :: items) s
        (⟨.starts scope (.mk labels act site), depth, s⟩ ::
          (log ++ ⟨.ends (.mk labels act site), depth, t⟩ :: log')) u
  /-- a block, behind which its registers are free again -/
  | block {depth : Nat} {scope : List Variable} {labels : List Label} {body : List Stmt}
      {site : Location} {items : List Item} {s t u : State} {log log' : List Event}
      (hinner : Trace (depth + 1) scope (body.map .stmt) (s.labelAll labels) log t)
      (hrest : Trace depth scope items (t.released s.mark) log' u) :
      Trace depth scope (.stmt (.mk labels (.block body) site) :: items) s
        (⟨.starts scope (.mk labels (.block body) site), depth, s⟩ ::
          (log ++ ⟨.ends (.mk labels (.block body) site), depth, t.released s.mark⟩ :: log')) u
  /-- a file that was placed before -/
  | skip {depth : Nat} {scope : List Variable} {labels : List Label} {file : Program}
      {site : Location} {items : List Item} {s u : State} {log : List Event}
      (hskip : s.skips file = true) (hrest : Trace depth scope items (s.labelAll labels) log u) :
      Trace depth scope (.stmt (.mk labels (.place file) site) :: items) s
        (⟨.starts scope (.mk labels (.place file) site), depth, s⟩ ::
          ⟨.ends (.mk labels (.place file) site), depth, s.labelAll labels⟩ :: log) u
  /-- a file whose statements are emitted here -/
  | file {depth : Nat} {scope : List Variable} {labels : List Label} {file : Program}
      {site : Location} {items : List Item} {s t u w : State} {log log' : List Event}
      (hskip : s.skips file = false)
      (halign : alignTo file.pragmas.align ((s.labelAll labels).reach file) = .ok ⟨⟩ t)
      (hinner : Trace depth [] (file.statements.map .stmt) t log u)
      (hrest : Trace depth scope items u log' w) :
      Trace depth scope (.stmt (.mk labels (.place file) site) :: items) s
        (⟨.starts scope (.mk labels (.place file) site), depth, s⟩ ::
          ⟨.enters file, depth, s.labelAll labels⟩ :: (log ++ ⟨.leaves file, depth, u⟩ ::
            ⟨.ends (.mk labels (.place file) site), depth, u⟩ :: log')) w

/-- A trace of statements begins with the start of the first one. -/
theorem Trace.begins {depth : Nat} {scope : List Variable} {st : Stmt} {items : List Item}
    {s t : State} {log : List Event} (h : Trace depth scope (.stmt st :: items) s log t) :
    ∃ later, log = ⟨.starts scope st, depth, s⟩ :: later := by
  cases h with
  | simple _ _ _ => exact ⟨_, rfl⟩
  | compound _ _ _ => exact ⟨_, rfl⟩
  | block _ _ => exact ⟨_, rfl⟩
  | skip _ _ => exact ⟨_, rfl⟩
  | file _ _ _ _ => exact ⟨_, rfl⟩

/-! ## Every trace is one of an emission -/

theorem run_newPoint (role : String) (s : State) :
    newPoint role s = .ok (.point role (s.serial + 1)) { s with serial := s.serial + 1 } := rfl

theorem run_glue {code : Glue} {s t : State} (items : List Item) (h : code.emit s = .ok ⟨⟩ t) :
    emitAll (.glue code :: items) s = emitAll items t := by
  rw [emitAll, Item.emit, run_bind h]

theorem run_emitAll_stmt {st : Stmt} {s t : State} (items : List Item)
    (h : stmt st s = .ok ⟨⟩ t) : emitAll (.stmt st :: items) s = emitAll items t := by
  rw [emitAll, Item.emit, run_bind h]

/-- The code of a condition or a loop is that of its parts. -/
theorem run_parts {act : Action} {items : List Item} {s : State}
    (h : parts s.serial act = some items) : action act s = emitAll items s := by
  cases act with
  | branch condition taken otherwise =>
      cases otherwise <;> cases h <;>
        simp only [action, alternative, emitAll, Item.emit, Glue.emit, bind_assoc, pure_bind,
          bind_pure_unit] <;>
        repeat rw [run_bind (run_newPoint _ _)]
  | loop condition body bodyFirst =>
      cases bodyFirst <;> cases h <;>
        simp only [action, emitAll, Item.emit, Glue.emit, bind_assoc, pure_bind,
          bind_pure_unit] <;>
        repeat rw [run_bind (run_newPoint _ _)]
  | nothing | place _ | evaluate _ | goto _ | define _ _ | reserve _ | assign _ _ | block _
  | words _ => cases h

theorem run_block (body : List Stmt) {s t : State} (h : stmts body s = .ok ⟨⟩ t) :
    action (.block body) s = .ok ⟨⟩ (t.released s.mark) := by
  rw [action]
  show (stmts body >>= fun _ => release s.mark) s = _
  rw [run_bind h]
  rfl

theorem run_skip {file : Program} {s : State} (h : s.skips file = true) :
    action (.place file) s = .ok ⟨⟩ s := by
  cases file with
  | mk path statements exports pragmas =>
      have hskip : (!pragmas.multi && s.placed.contains path.key) = true := h
      rw [action, program]
      show (if (!pragmas.multi && s.placed.contains path.key) = true then _ else _ : Emitter Unit) s
        = _
      rw [if_pos hskip]
      rfl

theorem run_file {file : Program} {s : State} (h : s.skips file = false) :
    action (.place file) s =
      (alignTo file.pragmas.align >>= fun _ => stmts file.statements) (s.reach file) := by
  cases file with
  | mk path statements exports pragmas =>
      have hskip : (!pragmas.multi && s.placed.contains path.key) = false := h
      rw [action, program]
      show (if (!pragmas.multi && s.placed.contains path.key) = true then _ else _ : Emitter Unit) s
        = _
      rw [hskip]
      show (if (!pragmas.multi) = true then _ else _ : Emitter Unit) s = _
      unfold State.reach
      cases pragmas with
      | mk align multi => cases multi <;> rfl

theorem emitAll_map_stmt : ∀ (ss : List Stmt) (s : State),
    emitAll (ss.map .stmt) s = stmts ss s
  | [], s => by
      rw [stmts]
      rfl
  | st :: ss, s => by
      rw [stmts, List.map_cons, emitAll]
      show EStateM.bind (stmt st) (fun _ => emitAll (ss.map .stmt)) s =
        EStateM.bind (stmt st) (fun _ => stmts ss) s
      unfold EStateM.bind
      cases stmt st s with
      | error e t => rfl
      | ok a t => exact emitAll_map_stmt ss t

/-- What a trace is of is emitted, from the first state to the last one. -/
theorem Trace.run {depth : Nat} {scope : List Variable} {items : List Item} {s t : State}
    {log : List Event} (h : Trace depth scope items s log t) : emitAll items s = .ok ⟨⟩ t := by
  induction h with
  | done => rfl
  | glue hrun _ ih =>
      rw [run_glue _ hrun]
      exact ih
  | simple _ hrun _ ih =>
      rw [run_emitAll_stmt _ ((run_stmt _ _ _ _).trans hrun)]
      exact ih
  | @compound _ _ labels act site inner items s t u log log' hparts _ _ ih ih' =>
      rw [← State.serial_labelAll labels] at hparts
      rw [run_emitAll_stmt _ ((run_stmt labels act site s).trans ((run_parts hparts).trans ih))]
      exact ih'
  | @block _ _ labels body site items s t u log log' _ _ ih ih' =>
      rw [emitAll_map_stmt] at ih
      have hrun := (run_stmt labels _ site s).trans (run_block body ih)
      rw [State.mark_labelAll] at hrun
      rw [run_emitAll_stmt _ hrun]
      exact ih'
  | @skip _ _ labels file site items s u log hskip _ ih =>
      rw [← State.skips_labelAll s labels] at hskip
      rw [run_emitAll_stmt _ ((run_stmt _ _ _ _).trans (run_skip hskip))]
      exact ih
  | @file _ _ labels file site items s t u w log log' hskip halign _ _ ih ih' =>
      rw [← State.skips_labelAll s labels] at hskip
      rw [emitAll_map_stmt] at ih
      have hrun := (run_stmt labels _ site s).trans ((run_file hskip).trans (run_bind halign))
      rw [run_emitAll_stmt _ (hrun.trans ih)]
      exact ih'

/-! ## Every emission has a trace -/

/-- Wherever the statement is emitted and a trace goes on behind it, the trace may start with it. -/
structure Traced (st : Stmt) : Prop where
  trace : ∀ {depth : Nat} {scope : List Variable} {items : List Item} {s t u : State}
    {log : List Event}, stmt st s = .ok ⟨⟩ t → Trace depth (st.scope scope) items t log u →
    ∃ log', Trace depth scope (.stmt st :: items) s log' u

theorem trace_items {depth : Nat} : ∀ {items : List Item} {scope : List Variable} {s t : State},
    (∀ st, .stmt st ∈ items → Traced st) → emitAll items s = .ok ⟨⟩ t →
    ∃ log, Trace depth scope items s log t
  | [], scope, s, t, _, h => by
      cases h
      exact ⟨[], .done⟩
  | .glue code :: items, scope, s, t, htraced, h => by
      rw [emitAll] at h
      obtain ⟨_, u, hcode, hrest⟩ := ok_bind h
      obtain ⟨log, hlog⟩ := trace_items (fun st hst => htraced st (List.mem_cons_of_mem _ hst)) hrest
      exact ⟨_, .glue hcode hlog⟩
  | .stmt st :: items, scope, s, t, htraced, h => by
      rw [emitAll] at h
      obtain ⟨_, u, hst, hrest⟩ := ok_bind h
      obtain ⟨log, hlog⟩ := trace_items (fun st hst => htraced st (List.mem_cons_of_mem _ hst)) hrest
      exact (htraced st List.mem_cons_self).trace hst hlog

theorem traced_map {ss : List Stmt} (h : ∀ st ∈ ss, Traced st) :
    ∀ st, Item.stmt st ∈ ss.map Item.stmt → Traced st := by
  intro st hst
  obtain ⟨st', hmem, heq⟩ := List.mem_map.mp hst
  cases heq
  exact h st hmem

theorem compound_traced {act : Action} {labels : List Label} {site : Location} {depth : Nat}
    {scope : List Variable} {items inner : List Item} {s t u : State} {log : List Event}
    (hparts : parts s.serial act = some inner) (htraced : ∀ st, .stmt st ∈ inner → Traced st)
    (hrun : action act (s.labelAll labels) = .ok ⟨⟩ t)
    (hrest : Trace depth (act.scope scope) items t log u) :
    ∃ log', Trace depth scope (.stmt (.mk labels act site) :: items) s log' u := by
  have hparts' := hparts
  rw [← State.serial_labelAll labels] at hparts'
  rw [run_parts hparts'] at hrun
  obtain ⟨log', hlog'⟩ := trace_items htraced hrun
  exact ⟨_, .compound hparts hlog' hrest⟩

mutual

theorem stmt_traced : ∀ st : Stmt, Traced st
  | .mk labels act site => by
      refine ⟨fun hrun hrest => ?_⟩
      rw [run_stmt] at hrun
      exact action_traced act labels site hrun hrest

theorem stmts_traced : ∀ (ss : List Stmt), ∀ st ∈ ss, Traced st
  | [], st, h => nomatch h
  | first :: rest, st, h => by
      rcases List.mem_cons.mp h with heq | hrest
      · rw [heq]
        exact stmt_traced first
      · exact stmts_traced rest st hrest

theorem action_traced : ∀ (act : Action) (labels : List Label) (site : Location) {depth : Nat}
    {scope : List Variable} {items : List Item} {s t u : State} {log : List Event},
    action act (s.labelAll labels) = .ok ⟨⟩ t → Trace depth (act.scope scope) items t log u →
    ∃ log', Trace depth scope (.stmt (.mk labels act site) :: items) s log' u
  | .nothing, labels, site, depth, scope, items, s, t, u, log, hrun, hrest
  | .evaluate _, labels, site, depth, scope, items, s, t, u, log, hrun, hrest
  | .goto _, labels, site, depth, scope, items, s, t, u, log, hrun, hrest
  | .define _ _, labels, site, depth, scope, items, s, t, u, log, hrun, hrest
  | .reserve _, labels, site, depth, scope, items, s, t, u, log, hrun, hrest
  | .assign _ _, labels, site, depth, scope, items, s, t, u, log, hrun, hrest
  | .words _, labels, site, depth, scope, items, s, t, u, log, hrun, hrest =>
      ⟨_, .simple rfl hrun hrest⟩
  | .place (.mk path statements exports pragmas), labels, site, depth, scope, items, s, t, u, log,
      hrun, hrest => by
      cases hskip : s.skips (.mk path statements exports pragmas) with
      | true =>
          rw [run_skip ((State.skips_labelAll _ _ _).trans hskip)] at hrun
          cases hrun
          exact ⟨_, .skip hskip hrest⟩
      | false =>
          rw [run_file ((State.skips_labelAll _ _ _).trans hskip)] at hrun
          obtain ⟨_, v, halign, hinner⟩ := ok_bind hrun
          rw [← emitAll_map_stmt] at hinner
          have htraced := traced_map (stmts_traced statements)
          obtain ⟨log', hlog'⟩ := trace_items htraced hinner
          exact ⟨_, .file hskip halign hlog' hrest⟩
  | .block body, labels, site, depth, scope, items, s, t, u, log, hrun, hrest => by
      rw [action] at hrun
      obtain ⟨_, v, hinner, hrelease⟩ :=
        ok_bind (x := stmts body) (f := fun _ => release (s.labelAll labels).mark) hrun
      cases hrelease
      rw [← emitAll_map_stmt] at hinner
      have htraced := traced_map (stmts_traced body)
      obtain ⟨log', hlog'⟩ : ∃ log', Trace (depth + 1) scope (body.map .stmt) (s.labelAll labels)
          log' v := trace_items htraced hinner
      -- labels leave the mark as it is
      have hrest' : Trace depth scope items (v.released s.mark) log u := by
        rw [← State.mark_labelAll labels s]
        exact hrest
      exact ⟨_, .block hlog' hrest'⟩
  | .branch condition taken none, labels, site, depth, scope, items, s, t, u, log, hrun, hrest => by
      have hparts : parts s.serial (.branch condition taken none) = some _ := rfl
      have htaken := stmt_traced taken
      refine compound_traced hparts (fun st hst => ?_) hrun hrest
      obtain rfl : st = taken := by simpa using hst
      exact htaken
  | .branch condition taken (some other), labels, site, depth, scope, items, s, t, u, log, hrun,
      hrest => by
      have hparts : parts s.serial (.branch condition taken (some other)) = some _ := rfl
      have htaken := stmt_traced taken
      have hother := stmt_traced other
      refine compound_traced hparts (fun st hst => ?_) hrun hrest
      have hcases : st = taken ∨ st = other := by simpa using hst
      rcases hcases with rfl | rfl
      · exact htaken
      · exact hother
  | .loop condition body false, labels, site, depth, scope, items, s, t, u, log, hrun, hrest => by
      have hparts : parts s.serial (.loop condition body false) = some _ := rfl
      have hbody := stmt_traced body
      refine compound_traced hparts (fun st hst => ?_) hrun hrest
      obtain rfl : st = body := by simpa using hst
      exact hbody
  | .loop condition body true, labels, site, depth, scope, items, s, t, u, log, hrun, hrest => by
      have hparts : parts s.serial (.loop condition body true) = some _ := rfl
      have hbody := stmt_traced body
      refine compound_traced hparts (fun st hst => ?_) hrun hrest
      obtain rfl : st = body := by simpa using hst
      exact hbody

end

/-- Emitting statements has a trace, wherever they stand. -/
theorem trace_of_run {ss : List Stmt} {s t : State} (depth : Nat) (scope : List Variable)
    (h : stmts ss s = .ok ⟨⟩ t) : ∃ log, Trace depth scope (ss.map .stmt) s log t :=
  trace_items (traced_map (stmts_traced ss)) ((emitAll_map_stmt ss s).trans h)

end Emit

end ByteJump
