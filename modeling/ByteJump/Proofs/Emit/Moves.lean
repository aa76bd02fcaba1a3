import ByteJump.Proofs.Emit.Laying
import ByteJump.Proofs.Emit.Rules
import ByteJump.Proofs.Emit.Trace

set_option autoImplicit false

/-!
# Emission move by move

All of emission goes by moves from wherever it starts, whether it ends well or with a fault.  What
happens along a trace happens on the way.

`Moves` is the closure of single moves: a move adds a piece or a constant, or leaves the code as
it is, whatever happens to labels, registers and points.  `Moving` says of a computation that it
gets from any state to its `ending` by moves, whichever way it ends; the rules below close it
under binds, and the recursion over statements gives it for every program.  A property that one
move keeps therefore holds at the end of every emission, and by `Trace.moves` it holds at each
event of a trace as well.  This is how invariants are carried in the modules that build on this
one: they prove one lemma about a move and none about statements. -/

namespace ByteJump

namespace Emit

open Assembly Memory Relation

variable {α β : Type}

/-! ## All of emission

A run that fails has gone somewhere too, and what it has pushed by then counts.  So the end of a
run is a state in both cases, and the rules below do not ask how a run ended. -/

/-- The state at the end, whether emission ends well or with a fault. -/
def ending (x : Emitter α) (s : State) : State :=
  match x s with
  | .ok _ t => t
  | .error _ t => t

/-- The end of a run that ends well. -/
theorem ending_of_ok {x : Emitter α} {a : α} {s t : State} (h : x s = .ok a t) :
    ending x s = t := by
  unfold ending
  rw [h]

/-- The end of a run that fails. -/
theorem ending_of_error {x : Emitter α} {e : Fault} {s t : State} (h : x s = .error e t) :
    ending x s = t := by
  unfold ending
  rw [h]

/-- Emission goes by moves from wherever it starts. -/
structure Moving (x : Emitter α) : Prop where
  run : ∀ s, Moves s (ending x s)

/-- What only lays pieces down goes by moves. -/
theorem Laying.moving {x : Emitter α} (h : Laying Puts x) : Moving x := by
  refine ⟨fun s => ?_⟩
  have hrun := h.run s
  cases hx : x s with
  | ok a t =>
      rw [hx] at hrun
      rw [ending_of_ok hx]
      exact moves_of_puts hrun
  | error e t =>
      rw [hx] at hrun
      rw [ending_of_error hx]
      exact moves_of_puts hrun.1

section Rules

/-- A result takes no move. -/
theorem Moving.pure {a : α} : Moving (Pure.pure a : Emitter α) := ⟨fun _ => .refl⟩

/-- A fault takes no move. -/
theorem Moving.throw {e : Fault} : Moving (MonadExcept.throw e : Emitter α) := ⟨fun _ => .refl⟩

/-- If the first part fails, the whole run ends where that part ended. -/
theorem Moving.bind {x : Emitter β} {f : β → Emitter α} (h : Moving x) (hf : ∀ b, Moving (f b)) :
    Moving (x >>= f) := by
  refine ⟨fun s => ?_⟩
  have hx := h.run s
  cases hrun : x s with
  | ok b t =>
      rw [ending_of_ok hrun] at hx
      have hrest := (hf b).run t
      unfold ending at hrest ⊢
      rw [run_bind hrun]
      exact hx.trans hrest
  | error e t =>
      rw [ending_of_error hrun] at hx
      rw [ending_of_error (run_bind_error hrun)]
      exact hx

/-- The state may be looked at on the way. -/
theorem Moving.get {f : State → Emitter α} (h : ∀ s, Moving (f s)) :
    Moving (MonadState.get >>= f) := ⟨fun s => (h s).run s⟩

/-- An update that leaves the code as it was is a single move. -/
theorem Moving.update {f : State → State} (h : ∀ s, SameCode s (f s)) :
    Moving (modify f : Emitter PUnit) := ⟨fun s => .single (.same (h s))⟩

end Rules

/-- Registers are given out without touching the code. -/
theorem allocate_moving (count : Nat) (site : Location) : Moving (allocate count site) := by
  refine .get fun s => ?_
  dsimp only
  split
  · refine Moving.bind (.update fun _ => ?_) fun _ => .pure
    exact ⟨rfl, rfl, rfl, rfl⟩
  · exact .throw

/-- Registers are given back without touching the code. -/
theorem release_moving (mark : Nat) : Moving (release mark) := .update fun _ => ⟨rfl, rfl, rfl, rfl⟩

/-- A label is bound without touching the code. -/
theorem placeLabel_moving (label : Label) : Moving (placeLabel label) :=
  .update fun _ => ⟨rfl, rfl, rfl, rfl⟩

theorem forM_placeLabel_moving : ∀ labels : List Label, Moving (labels.forM placeLabel)
  | [] => .pure
  | label :: labels => (placeLabel_moving label).bind fun _ => forM_placeLabel_moving labels

/-- A point is counted without touching the code. -/
theorem newPoint_moving (role : String) : Moving (newPoint role) := by
  refine .get fun s => Moving.bind (.update fun _ => ?_) fun _ => .pure
  exact ⟨rfl, rfl, rfl, rfl⟩

theorem place_moving : ∀ target : Target, Moving (place target)
  | .label label => placeLabel_moving label
  | .point _ _ => .update fun _ => ⟨rfl, rfl, rfl, rfl⟩

/-- Expressions only use the primitives, so the common walk over them gives that they go by moves.
-/
theorem moving_rules : Rules (fun _ => True) Moving where
  inherited := inherited_true
  pure := .pure
  bind := .bind
  mark h _ := .get h
  copy source destination := (copy_laying source destination).moving
  patched fields source destination := (patched_laying fields source destination).moving
  byteConstant value := (byteConstant_laying value).moving
  stringConstant text := (stringConstant_laying text).moving
  release := release_moving
  allocate _ := allocate_moving 1 _
  refuse _ _ := .throw
  register {v _ _} _ h := .get fun s => by
    cases s.bindings.register? v with
    | some r => exact h r
    | none => exact .throw
  word _ _ := (labelWord_laying _ _).moving
  unresolved _ _ := .throw

/-- By the rules for expressions. -/
theorem expr_moving (e : Expr) : Moving (expr e) := moving_rules.expr trivial

theorem branch_moving (condition : Expr) (taken otherwise : Target) :
    Moving (branch condition taken otherwise) :=
  moving_rules.branch trivial (branchTable_laying taken otherwise).moving

/-- The value is computed first; then its register is bound, which leaves the code as it was. -/
theorem define_moving (v : Variable) (value : Expr) : Moving (action (.define v value)) := by
  rw [action]
  refine (expr_moving value).bind fun _ => (allocate_moving 1 _).bind fun r => ?_
  refine Moving.bind (.update fun _ => ?_) fun _ => (copyRange_laying _ _ _).moving
  exact ⟨rfl, rfl, rfl, rfl⟩

/-- A variable is bound and the code stays. -/
theorem reserve_moving (v : Variable) : Moving (action (.reserve v)) := by
  rw [action]
  cases v.count with
  | some count =>
      refine (allocate_moving _ _).bind fun _ => .update fun _ => ?_
      exact ⟨rfl, rfl, rfl, rfl⟩
  | none => exact .throw

/-- Both forms of a loop place their points around the same two parts, in another order. -/
theorem loop_moving (condition : Expr) {body : Stmt} (hbody : Moving (stmt body)) :
    ∀ bodyFirst : Bool, Moving (action (.loop condition body bodyFirst))
  | false => by
      rw [action]
      refine (newPoint_moving _).bind fun top => (newPoint_moving _).bind fun start =>
        (newPoint_moving _).bind fun finish => (place_moving _).bind fun _ => ?_
      exact (branch_moving _ _ _).bind fun _ => (place_moving _).bind fun _ => hbody.bind fun _ =>
        (jumpTo_laying _).moving.bind fun _ => place_moving _
  | true => by
      rw [action]
      refine (newPoint_moving _).bind fun top => (newPoint_moving _).bind fun finish => ?_
      exact (place_moving _).bind fun _ => hbody.bind fun _ => (branch_moving _ _ _).bind fun _ =>
        place_moving _

mutual

/-- By induction on the statement. -/
theorem stmt_moving : ∀ st : Stmt, Moving (stmt st)
  | .mk labels act _ => by
      rw [stmt]
      exact (forM_placeLabel_moving labels).bind fun _ => action_moving act

theorem stmts_moving : ∀ ss : List Stmt, Moving (stmts ss)
  | [] => by
      rw [stmts]
      exact .pure
  | st :: ss => by
      rw [stmts]
      exact (stmt_moving st).bind fun _ => stmts_moving ss

theorem alternative_moving (condition : Expr) (taken finish : Target) {body : Emitter Unit}
    (hbody : Moving body) :
    ∀ otherwise : Option Stmt, Moving (alternative condition taken finish body otherwise)
  | some st => by
      rw [alternative]
      exact (newPoint_moving _).bind fun _ => (branch_moving _ _ _).bind fun _ =>
        (place_moving _).bind fun _ => hbody.bind fun _ => (jumpTo_laying _).moving.bind fun _ =>
          (place_moving _).bind fun _ => stmt_moving st
  | none => by
      rw [alternative]
      exact (branch_moving _ _ _).bind fun _ => (place_moving _).bind fun _ => hbody

/-- One case for each action, with the statements inside given by the recursion. -/
theorem action_moving : ∀ act : Action, Moving (action act)
  | .nothing => by
      rw [action]
      exact .pure
  | .place file => by
      rw [action]
      exact program_moving file
  | .evaluate value => by
      rw [action]
      exact expr_moving value
  | .goto target => by
      rw [action]
      exact (expr_moving target).bind fun _ => goto_laying.moving
  | .define v value => define_moving v value
  | .reserve v => reserve_moving v
  | .assign target value => by
      rw [action]
      exact moving_rules.store trivial trivial
  | .block body => by
      rw [action]
      have hbody := stmts_moving body
      exact .get fun _ => hbody.bind fun _ => release_moving _
  | .branch condition taken otherwise => by
      rw [action]
      have htaken := stmt_moving taken
      exact (newPoint_moving _).bind fun _ => (newPoint_moving _).bind fun _ =>
        (alternative_moving _ _ _ htaken otherwise).bind fun _ => place_moving _
  | .loop condition body bodyFirst => loop_moving condition (stmt_moving body) bodyFirst
  | .words values => by
      rw [action]
      exact (rawWords_laying values).moving

/-- A file that was placed before and is not placed again emits nothing. -/
theorem program_moving : ∀ p : Program, Moving (program p)
  | .mk file statements _ pragmas => by
      rw [program]
      have hstatements := stmts_moving statements
      have hcode : Moving (alignTo pragmas.align >>= fun _ => stmts statements) :=
        (alignTo_laying _).moving.bind fun _ => hstatements
      refine .get fun s => ?_
      dsimp only
      split
      · exact .pure
      split
      · refine Moving.bind (.update fun _ => ?_) fun _ => hcode
        exact ⟨rfl, rfl, rfl, rfl⟩
      · exact hcode

end

/-! ## Traces

An event of a trace is noted at a state in the middle of a run.  The state is reached from the
start by moves, and the end is reached from it: `Between` says both, and widens with the stretch
of the run. -/

theorem glue_moving : ∀ code : Glue, Moving code.emit
  | .point role => (newPoint_moving role).bind fun _ => .pure
  | .branch condition taken otherwise => branch_moving condition taken otherwise
  | .jump target => (jumpTo_laying target).moving
  | .place role serial => place_moving (.point role serial)

theorem Moving.moves {x : Emitter α} (h : Moving x) {a : α} {s t : State} (hrun : x s = .ok a t) :
    Moves s t := ending_of_ok hrun ▸ h.run s

theorem moves_labelAll (s : State) (labels : List Label) : Moves s (s.labelAll labels) :=
  (forM_placeLabel_moving labels).moves (run_forM_placeLabel labels s)

theorem moves_released (s : State) (mark : Nat) : Moves s (s.released mark) :=
  .single (.same ⟨rfl, rfl, rfl, rfl⟩)

theorem moves_reach (s : State) (file : Program) : Moves s (s.reach file) := by
  unfold State.reach
  split
  · exact .refl
  · exact .single (.same ⟨rfl, rfl, rfl, rfl⟩)

/-- An event stands between two states that emission goes through. -/
def Event.Between (e : Event) (s t : State) : Prop := Moves s e.state ∧ Moves e.state t

theorem Event.Between.mono {e : Event} {s s' t t' : State} (h : e.Between s t) (hs : Moves s' s)
    (ht : Moves t t') : e.Between s' t' := ⟨hs.trans h.1, h.2.trans ht⟩

/-- A trace goes by moves, and all its events stand on the way. -/
theorem Trace.moves {depth : Nat} {scope : List Variable} {items : List Item} {s t : State}
    {log : List Event} (h : Trace depth scope items s log t) :
    Moves s t ∧ ∀ e ∈ log, e.Between s t := by
  induction h with
  | done => exact ⟨.refl, nofun⟩
  | @glue depth _ code items s t u log hrun _ ih =>
      have hcode := (glue_moving code).moves hrun
      refine ⟨hcode.trans ih.1, fun e he => ?_⟩
      rcases List.mem_append.mp he with he | he
      · have hstate : e.state = s := by
          cases code with
          | place role serial =>
              rw [List.mem_singleton.mp he]
          | point _ | branch _ _ _ | jump _ => cases he
        exact ⟨hstate ▸ .refl, hstate ▸ hcode.trans ih.1⟩
      · exact (ih.2 e he).mono hcode .refl
  | @simple depth scope labels act site items s t u log hsimple hrun _ ih =>
      have hact := (moves_labelAll s labels).trans ((action_moving act).moves hrun)
      refine ⟨hact.trans ih.1, List.forall_mem_cons.mpr ⟨⟨.refl, hact.trans ih.1⟩,
        List.forall_mem_cons.mpr ⟨⟨hact, ih.1⟩, fun e he => ?_⟩⟩⟩
      exact (ih.2 e he).mono hact .refl
  | @compound depth scope labels act site inner items s t u log log' hparts _ _ ih ih' =>
      have hlabels := moves_labelAll s labels
      have hinner := hlabels.trans ih.1
      refine ⟨hinner.trans ih'.1, List.forall_mem_cons.mpr ⟨⟨.refl, hinner.trans ih'.1⟩, ?_⟩⟩
      refine List.forall_mem_append.mpr ⟨fun e he => (ih.2 e he).mono hlabels ih'.1,
        List.forall_mem_cons.mpr ⟨⟨hinner, ih'.1⟩, fun e he => ?_⟩⟩
      exact (ih'.2 e he).mono hinner .refl
  | @block depth scope labels body site items s t u log log' _ _ ih ih' =>
      have hlabels := moves_labelAll s labels
      have hreleased := moves_released t s.mark
      have hinner := (hlabels.trans ih.1).trans hreleased
      refine ⟨hinner.trans ih'.1, List.forall_mem_cons.mpr ⟨⟨.refl, hinner.trans ih'.1⟩, ?_⟩⟩
      refine List.forall_mem_append.mpr
        ⟨fun e he => (ih.2 e he).mono hlabels (hreleased.trans ih'.1),
          List.forall_mem_cons.mpr ⟨⟨hinner, ih'.1⟩, fun e he => ?_⟩⟩
      exact (ih'.2 e he).mono hinner .refl
  | @skip depth scope labels file site items s u log _ _ ih =>
      have hlabels := moves_labelAll s labels
      refine ⟨hlabels.trans ih.1, List.forall_mem_cons.mpr ⟨⟨.refl, hlabels.trans ih.1⟩,
        List.forall_mem_cons.mpr ⟨⟨hlabels, ih.1⟩, fun e he => ?_⟩⟩⟩
      exact (ih.2 e he).mono hlabels .refl
  | @file depth scope labels file site items s t u w log log' _ halign _ _ ih ih' =>
      have hlabels := moves_labelAll s labels
      have hstart := (moves_reach _ file).trans ((alignTo_laying _).moving.moves halign)
      have hinner := hlabels.trans (hstart.trans ih.1)
      refine ⟨hinner.trans ih'.1, List.forall_mem_cons.mpr ⟨⟨.refl, hinner.trans ih'.1⟩,
        List.forall_mem_cons.mpr ⟨⟨hlabels, (hstart.trans ih.1).trans ih'.1⟩, ?_⟩⟩⟩
      refine List.forall_mem_append.mpr
        ⟨fun e he => (ih.2 e he).mono (hlabels.trans hstart) ih'.1,
          List.forall_mem_cons.mpr ⟨⟨hinner, ih'.1⟩,
            List.forall_mem_cons.mpr ⟨⟨hinner, ih'.1⟩, fun e he => ?_⟩⟩⟩
      exact (ih'.2 e he).mono hinner .refl

end Emit

end ByteJump
