import ByteJump.Proofs.Emit.Statements
import ByteJump.Proofs.Renaming
import ByteJump.Proofs.Emit.Calm

set_option autoImplicit false

/-!
# Emission over earlier bindings

Code is emitted the same way whatever was bound before, and whichever units declarations are
numbered in.  A state is carried over to another numbering by renaming what its pieces and bindings
refer to, with some earlier bindings below.  Emitting renamed code from a carried state does what
emitting the code itself does, carried over: a look-up finds what was bound last, and the earlier
bindings are reached only by one that would find nothing without them.

The statement is about two runs at once: `Carried r old x y s` says that `y`, from the state `s`
carried over, ends as `x` does from `s`, carried over.  It is stated at one state and not for all
of them, since what a look-up finds depends on what is bound there.  The one way in which earlier
bindings can be seen is a look-up that finds nothing among the bindings of this generation.
`Tells` leaves out just these ends: a run that fails because a declaration has no place or no
register.  That such an end does not occur in a generation is shown elsewhere, from what the
resolver guarantees.
-/

namespace ByteJump

/-- Units stay apart under the renaming, and paths stay the same. -/
structure Renaming.Faithful (r : Renaming) : Prop where
  unit : r.unit.Injective
  key : ∀ path, (r.path path).key = path.key

section Defs

variable (r : Renaming)

/-- A target with its label renamed. -/
def Target.rename : Target → Target
  | .label l => .label (l.rename r)
  | .point role serial => .point role serial

/-- A word with its symbol renamed. -/
def Assembly.Word.rename : Assembly.Word → Assembly.Word
  | .known value => .known value
  | .address target site => .address (target.rename r) (site.map (Location.rename r))
  | .constant value => .constant (value.rename r)

/-- A piece with its symbol renamed. -/
def Assembly.Piece.rename : Assembly.Piece → Assembly.Piece
  | .instruction source destination next => .instruction source destination (next.rename r)
  | .bytes data => .bytes data
  | .word value => .word (value.rename r)

/-- What some declarations are bound to, under their new names. -/
def renameKeys (bound : List (DeclId × Nat)) : List (DeclId × Nat) :=
  bound.map fun entry => (entry.1.rename r, entry.2)

/-- Bindings under new names, on top of earlier ones. -/
def Bindings.carry (b old : Bindings) : Bindings :=
  ⟨renameKeys r b.addresses ++ old.addresses, renameKeys r b.registers ++ old.registers⟩

/-- A state under new names, on top of earlier bindings. -/
def Emit.State.carry (old : Bindings) (s : State) : State :=
  { s with
    pieces := s.pieces.map (Assembly.Piece.rename r)
    bindings := s.bindings.carry r old }

end Defs

namespace Emit

open Assembly Memory

variable {r : Renaming} {old : Bindings} {α β : Type}

/-! ## Pieces and bindings

A piece keeps its size and its kind under new names.  A look-up under a new name goes through this
generation's bindings, which are in front, and only then through the earlier ones. -/

/-- A renaming changes what a word refers to and not how long it is. -/
@[simp]
theorem size_piece_rename (piece : Piece) : (piece.rename r).size = piece.size := by
  cases piece <;> rfl

/-- Code stays as long as it is. -/
@[simp]
theorem size_map_rename (pieces : List Piece) :
    Assembly.size (pieces.map (Piece.rename r)) = Assembly.size pieces := by
  simp [Assembly.size, Function.comp_def]

/-- A word that refers to something still does. -/
theorem isSymbol_rename (w : Word) : (w.rename r).isSymbol = w.isSymbol := by
  cases w <;> rfl

/-- Instructions stay instructions. -/
theorem isInstruction_rename (piece : Piece) :
    (piece.rename r).isInstruction = piece.isInstruction := by
  cases piece <;> rfl

/-- A piece has a word left open in one naming as in the other. -/
theorem hasSymbol_rename (piece : Piece) : (piece.rename r).hasSymbol = piece.hasSymbol := by
  cases piece <;> simp [Piece.hasSymbol, Piece.word?, Piece.rename, isSymbol_rename]

/-- As units stay apart, a new name is found in front exactly if the old one was. -/
theorem lookup_renameKeys (hr : r.unit.Injective) (id : DeclId) (rest : List (DeclId × Nat)) :
    ∀ bound : List (DeclId × Nat), (renameKeys r bound ++ rest).lookup (id.rename r) =
      (bound.lookup id).or (rest.lookup (id.rename r))
  | [] => rfl
  | entry :: bound => by
      have ih := lookup_renameKeys hr id rest bound
      unfold renameKeys at ih ⊢
      rw [List.map_cons, List.cons_append, List.lookup_cons, List.lookup_cons]
      have hbeq : (id.rename r == entry.1.rename r) = (id == entry.1) := by
        rw [Bool.eq_iff_iff, beq_iff_eq, beq_iff_eq, DeclId.rename_inj hr]
      rw [hbeq]
      cases id == entry.1 with
      | true => rfl
      | false => exact ih

/-- A look-up finds the same as before, and what was bound earlier if it found nothing. -/
theorem address?_carry (hr : r.unit.Injective) (b : Bindings) (l : Label) :
    (b.carry r old).address? (l.rename r) = (b.address? l).or (old.address? (l.rename r)) :=
  lookup_renameKeys hr l.id _ _

theorem register?_carry (hr : r.unit.Injective) (b : Bindings) (v : Variable) :
    (b.carry r old).register? (v.rename r) = (b.register? v).or (old.register? (v.rename r)) :=
  lookup_renameKeys hr v.id _ _

/-! ## Runs

The hypothesis of `Carried` is on how the first run ends.  For a bind this reaches back: if the
whole run tells, so does its first part, because a fault of the first part is a fault of the
whole. -/

/-- How a run ends, carried over. -/
def carryResult (r : Renaming) (old : Bindings) :
    EStateM.Result Fault State α → EStateM.Result Fault State α
  | .ok a t => .ok a (t.carry r old)
  | .error e t => .error (e.rename r) (t.carry r old)

/-- A fault is one that generating code may end with, unless nothing was bound earlier. -/
def Tells (old : Bindings) : EStateM.Result Fault State α → Prop
  | .ok _ _ => True
  | .error e _ => old = .none ∨ e.isGenerated = true

/-- From the carried state the second computation does what the first one does, carried over. -/
structure Carried (r : Renaming) (old : Bindings) (x y : Emitter α) (s : State) : Prop where
  run : Tells old (x s) → y (s.carry r old) = carryResult r old (x s)

section Rules

variable {s : State}

/-- A result is carried to itself. -/
theorem Carried.pure (a : α) : Carried r old (Pure.pure a) (Pure.pure a) s := ⟨fun _ => rfl⟩

/-- Faults carry locations, which are under new names in the second run. -/
theorem Carried.throw {e e' : Fault} (h : e' = e.rename r) :
    Carried r old (MonadExcept.throw e : Emitter α) (MonadExcept.throw e') s :=
  ⟨fun _ => by rw [h]; rfl⟩

/-- Two runs that go on with their states may be compared at these states. -/
theorem Carried.get {f g : State → Emitter α} (h : Carried r old (f s) (g (s.carry r old)) s) :
    Carried r old (MonadState.get >>= f) (MonadState.get >>= g) s := ⟨h.run⟩

/-- The position is the same in both runs. -/
theorem Carried.position {f g : Nat → Emitter α} (h : Carried r old (f s.position) (g s.position) s) :
    Carried r old (Emit.position >>= f) (Emit.position >>= g) s := ⟨h.run⟩

/-- A change of the state that commutes with carrying it over. -/
theorem Carried.update {f g : State → State} (h : g (s.carry r old) = (f s).carry r old) :
    Carried r old (modify f) (modify g) s := by
  refine ⟨fun _ => ?_⟩
  show EStateM.Result.ok PUnit.unit (g (s.carry r old)) = .ok PUnit.unit ((f s).carry r old)
  rw [h]

/-- The continuation is needed only from states that the first computation can end in. -/
theorem Carried.bind {x y : Emitter β} {f g : β → Emitter α} (h : Carried r old x y s)
    (hf : ∀ a t, x s = .ok a t → Carried r old (f a) (g a) t) :
    Carried r old (x >>= f) (y >>= g) s := by
  refine ⟨fun htells => ?_⟩
  cases hx : x s with
  | ok a t =>
      have hy := h.run (by rw [hx]; trivial)
      rw [hx] at hy
      rw [run_bind hx] at htells ⊢
      rw [run_bind hy]
      exact (hf a t hx).run htells
  | error e t =>
      rw [run_bind_error hx] at htells ⊢
      have hy := h.run (by rw [hx]; exact htells)
      rw [hx] at hy
      exact run_bind_error hy

/-- Behind a computation whose value does not matter. -/
theorem Carried.seq {x y : Emitter β} {f g : β → Emitter α} (h : Carried r old x y s)
    (hf : ∀ a t, Carried r old (f a) (g a) t) : Carried r old (x >>= f) (y >>= g) s :=
  h.bind fun a t _ => hf a t

end Rules

/-! ## Primitives

None of these looks a declaration up.  They read the position, the free registers and the pools,
all of which are the same in the carried state. -/

theorem push_carried (piece : Piece) (s : State) :
    Carried r old (push piece) (push (piece.rename r)) s :=
  .update (by simp [State.carry])

theorem instruction_carried (source destination next : Nat) (s : State) :
    Carried r old (instruction source destination next) (instruction source destination next) s :=
  push_carried (.instruction source destination (.known next)) s

theorem copy_carried (source destination : Nat) (s : State) :
    Carried r old (copy source destination) (copy source destination) s :=
  .position (instruction_carried _ _ _ s)

theorem copyRange_carried : ∀ (length source destination : Nat) (s : State),
    Carried r old (copyRange source destination length) (copyRange source destination length) s
  | 0, _, _, _ => .pure _
  | length + 1, source, destination, s => by
      rw [copyRange]
      exact (copy_carried _ _ s).seq fun _ t => copyRange_carried length _ _ t

/-- Pieces are pushed under their new names. -/
theorem forM_push_carried : ∀ (pieces : List Piece) (s : State),
    Carried r old (pieces.forM push) ((pieces.map (Piece.rename r)).forM push) s
  | [], _ => .pure _
  | piece :: pieces, s => by
      show Carried r old (push piece >>= fun _ => pieces.forM push)
        (push (piece.rename r) >>= fun _ => (pieces.map (Piece.rename r)).forM push) s
      exact (push_carried piece s).seq fun _ t => forM_push_carried pieces t

theorem jumpOver_carried (pieces : List Piece) (s : State) :
    Carried r old (jumpOver pieces) (jumpOver (pieces.map (Piece.rename r))) s := by
  unfold jumpOver
  refine .position ?_
  dsimp only
  rw [size_map_rename]
  exact (instruction_carried _ _ _ s).seq fun _ t =>
    (forM_push_carried pieces t).seq fun _ _ => .pure _

theorem jumpOverAligned_carried (align : Nat) (pieces : List Piece) (s : State) :
    Carried r old (jumpOverAligned align pieces)
      (jumpOverAligned align (pieces.map (Piece.rename r))) s := by
  unfold jumpOverAligned
  refine .position ?_
  dsimp only
  rw [size_map_rename]
  refine (instruction_carried _ _ _ s).seq fun _ t => ?_
  refine Carried.seq (push_carried (.bytes _) t) fun _ u => ?_
  exact (forM_push_carried pieces u).seq fun _ _ => .pure _

theorem byteConstant_carried (value : UInt8) (s : State) :
    Carried r old (byteConstant value) (byteConstant value) s := by
  unfold byteConstant
  refine .get ?_
  have hpool : (s.carry r old).byteConstants = s.byteConstants := rfl
  rw [hpool]
  cases s.byteConstants.lookup value with
  | some address => exact .pure _
  | none =>
      refine Carried.seq (jumpOver_carried [.bytes [value]] s) fun address t => ?_
      exact Carried.seq (.update rfl) fun _ _ => .pure _

theorem stringConstant_carried (text : String) (s : State) :
    Carried r old (stringConstant text) (stringConstant text) s := by
  unfold stringConstant
  refine .get ?_
  have hpool : (s.carry r old).strings = s.strings := rfl
  rw [hpool]
  cases s.strings.lookup text with
  | some address => exact .pure _
  | none =>
      refine Carried.seq (jumpOver_carried [.bytes text.toUTF8.toList] s) fun address t => ?_
      exact Carried.seq (.update rfl) fun _ _ => .pure _

theorem setByte_carried (destination : Nat) (value : UInt8) (s : State) :
    Carried r old (setByte destination value) (setByte destination value) s :=
  (byteConstant_carried value s).seq fun _ t => copy_carried _ _ t

theorem setBytes_carried : ∀ (length destination value : Nat) (s : State),
    Carried r old (setBytes destination length value) (setBytes destination length value) s
  | 0, _, _, _ => .pure _
  | length + 1, destination, value, s => by
      rw [setBytes]
      exact (setByte_carried _ _ s).seq fun _ t => setBytes_carried length _ _ t

theorem clearFrom_carried (width : Nat) (s : State) :
    Carried r old (clearFrom width) (clearFrom width) s := setBytes_carried _ _ _ s

theorem patches_carried (target : Nat) : ∀ (fields : List (Nat × Nat)) (s : State),
    Carried r old (patches target fields) (patches target fields) s
  | [], _ => .pure _
  | (source, offset) :: fields, s => by
      rw [patches]
      exact (copy_carried _ _ s).seq fun _ t => patches_carried target fields t

theorem patched_carried (fields : List (Nat × Nat)) (source destination : Nat) (s : State) :
    Carried r old (patched fields source destination) (patched fields source destination) s := by
  unfold patched
  refine Carried.seq (.position (.pure _)) fun target t => ?_
  exact (patches_carried target fields t).seq fun _ u => instruction_carried _ _ _ u

/-- The mark is a number of this generation, so registers run out at the same place. -/
theorem allocate_carried (count : Nat) (site : Location) (s : State) :
    Carried r old (allocate count site) (allocate count (site.rename r)) s := by
  unfold allocate
  refine .get ?_
  dsimp only
  show Carried r old _ (if s.mark + count ≤ registerCount then _ else _) s
  split
  · exact Carried.seq (.update rfl) fun _ _ => .pure _
  · exact .throw rfl

theorem release_carried (mark : Nat) (s : State) :
    Carried r old (release mark) (release mark) s := .update rfl

/-- A label that is placed is bound in front of all earlier bindings. -/
theorem placeLabel_carried (l : Label) (s : State) :
    Carried r old (placeLabel l) (placeLabel (l.rename r)) s := .update (by rfl)

/-- A target is placed under its new name. -/
theorem place_carried (target : Target) (s : State) :
    Carried r old (place target) (place (target.rename r)) s := by
  cases target with
  | label l => exact placeLabel_carried l s
  | point role serial => exact .update rfl

theorem newPoint_carried {f g : Target → Emitter α} (role : String) {s : State}
    (h : ∀ serial t, Carried r old (f (.point role serial)) (g (.point role serial)) t) :
    Carried r old (newPoint role >>= f) (newPoint role >>= g) s := by
  refine Carried.bind (Carried.get (Carried.seq (.update rfl) fun _ _ => .pure _)) ?_
  intro target t hrun
  cases hrun
  exact h _ _

/-- A jump leads to the target under its new name. -/
theorem jumpTo_carried (target : Target) (s : State) :
    Carried r old (jumpTo target) (jumpTo (target.rename r)) s :=
  push_carried (.instruction 0 0 (.address target none)) s

/-! ## Expressions

An expression looks its variables up; the rest of its code depends on widths, which a renaming
keeps.  A label goes into the code as a word, to be looked up at the end. -/

theorem noSize_rename (type : Ty) (site : Location) :
    Constant.noSize (type.rename r) (site.rename r) = (Constant.noSize type site).rename r := by
  simp [Constant.noSize, Fault.rename]

theorem widthOf_carried (type : Ty) (site : Location) (s : State) :
    Carried r old (widthOf type site) (widthOf (type.rename r) (site.rename r)) s := by
  unfold widthOf
  rw [Ty.width_rename]
  cases type.width with
  | some width => exact .pure _
  | none => exact .throw (noSize_rename type site)

theorem countZeros_carried (total flag : Nat) : ∀ (count i : Nat) (s : State),
    Carried r old (countZeros total flag count i) (countZeros total flag count i) s
  | 0, _, _ => .pure _
  | count + 1, i, s => by
      rw [countZeros]
      refine (patched_carried _ _ _ s).seq fun _ t => ?_
      exact (patched_carried _ _ _ t).seq fun _ u => countZeros_carried total flag count _ u

theorem logicalNot_carried (width : Nat) (site : Location) (s : State) :
    Carried r old (logicalNot width site) (logicalNot width (site.rename r)) s := by
  unfold logicalNot
  dsimp only
  refine .get ((allocate_carried 1 site s).seq fun scratch t => ?_)
  refine (setByte_carried _ _ t).seq fun _ t => (countZeros_carried _ _ _ _ t).seq fun _ t => ?_
  refine (patched_carried _ _ _ t).seq fun _ t => (clearFrom_carried 1 t).seq fun _ t => ?_
  exact release_carried _ t

/-- The register of a variable is looked up among those of this generation, which come first. -/
theorem variable_carried (hr : r.Faithful) (v : Variable) (info : Info) (s : State) :
    Carried r old (expr (.variable v info)) (expr ((Expr.variable v info).rename r)) s := by
  rw [Expr.rename, expr, expr]
  have hcount : (v.rename r).count = v.count := rfl
  rw [hcount]
  cases v.count with
  | some count => exact .throw rfl
  | none =>
      refine .get ?_
      have hlookup : (s.carry r old).bindings.register? (v.rename r) = _ :=
        register?_carry hr.unit s.bindings v
      cases hregister : s.bindings.register? v with
      | some n =>
          rw [hlookup, hregister]
          exact copyRange_carried _ _ _ s
      | none =>
          -- The fault is none that generating may end with, so nothing was bound earlier.
          refine ⟨fun htells => ?_⟩
          obtain hold : old = .none := htells.resolve_right Bool.false_ne_true
          rw [hlookup, hregister, hold]
          rfl

theorem labelUse_carried (use : LabelUse) (info : Info) (s : State) :
    Carried r old (expr (.label use info)) (expr ((Expr.label use info).rename r)) s := by
  rw [Expr.rename, expr, expr]
  cases htarget : use.target with
  | none =>
      have hrenamed : (use.rename r).target = none := by rw [LabelUse.rename, htarget]; rfl
      rw [hrenamed]
      exact .throw rfl
  | some label =>
      have hrenamed : (use.rename r).target = some (label.rename r) := by
        rw [LabelUse.rename, htarget]
        rfl
      rw [hrenamed]
      refine Carried.seq (jumpOver_carried [.word (.address (.label label) (some info.site))] s)
        fun address t => ?_
      exact (copyRange_carried _ _ _ t).seq fun _ u => clearFrom_carried _ u

/-- By induction on the expression.  Only a variable is looked up while an expression is emitted;
a label is looked up when the image is made. -/
theorem expr_carried (hr : r.Faithful) : ∀ (e : Expr) (s : State),
    Carried r old (expr e) (expr (e.rename r)) s
  | .int value info, s => by
      rw [Expr.rename, expr, expr]
      exact setBytes_carried _ _ _ s
  | .str text info, s => by
      rw [Expr.rename, expr, expr]
      refine (stringConstant_carried text s).seq fun address t => ?_
      exact (setBytes_carried _ _ _ t).seq fun _ u => setBytes_carried _ _ _ u
  | .variable v info, s => variable_carried hr v info s
  | .label use info, s => labelUse_carried use info s
  | .cast operand info, s => by
      rw [Expr.rename, expr, expr]
      refine (expr_carried hr operand s).seq fun _ t => ?_
      refine (widthOf_carried info.type info.site t).seq fun width u => ?_
      split
      · exact clearFrom_carried _ u
      · exact .pure _
  | .unary op operand info, s => by
      have hoperand := expr_carried hr operand
      cases op with
      | plus =>
          rw [Expr.rename, expr, expr]
          exact hoperand s
      | not =>
          rw [Expr.rename, expr, expr, Expr.type_rename, Expr.site_rename]
          refine (hoperand s).seq fun _ t => (widthOf_carried _ _ t).seq fun width u => ?_
          exact logicalNot_carried width info.site u
      | deref =>
          rw [Expr.rename, expr, expr]
          exact (hoperand s).seq fun _ t => (patched_carried _ _ _ t).seq fun _ u =>
            clearFrom_carried _ u
      | negate | complement =>
          rw [Expr.rename, expr, expr]
          exact .throw rfl
  | .binary op left right info, s => by
      rw [Expr.rename, expr, expr]
      refine (widthOf_carried info.type info.site s).seq fun width t => ?_
      split
      · exact .throw rfl
      split
      · exact .throw rfl
      · refine .get ((expr_carried hr left t).seq fun _ u => ?_)
        refine (allocate_carried 1 info.site u).seq fun saved u => (copy_carried _ _ u).seq fun _ u => ?_
        refine (expr_carried hr right u).seq fun _ u => (patched_carried _ _ _ u).seq fun _ u => ?_
        exact (clearFrom_carried 1 u).seq fun _ u => release_carried _ u
  | .index base indices info, s => by
      rw [Expr.rename, expr, expr]
      exact .throw rfl

/-! ## Branches, stores and words

Raw words are computed at once if they mention no label, and the environment they are computed in
knows the strings that were placed so far.  These are the same in the carried state. -/

/-- The selection of an entry refers to nothing by name. -/
theorem select_carried (table jump : Nat) : ∀ (count i : Nat) (s : State),
    Carried r old (select table jump count i) (select table jump count i) s
  | 0, _, _ => .pure _
  | count + 1, i, s => by
      rw [select]
      refine .position ((patched_carried _ _ _ s).seq fun _ t => ?_)
      exact (instruction_carried _ _ _ t).seq fun _ u => select_carried table jump count _ u

/-- The table holds the two targets under their new names. -/
theorem branch_carried (hr : r.Faithful) (condition : Expr) (taken otherwise : Target) (s : State) :
    Carried r old (branch condition taken otherwise)
      (branch (condition.rename r) (taken.rename r) (otherwise.rename r)) s := by
  unfold branch
  rw [Expr.type_rename, Expr.site_rename]
  refine (expr_carried hr condition s).seq fun _ t => ?_
  refine (widthOf_carried _ _ t).seq fun width t => (logicalNot_carried width _ t).seq fun _ t => ?_
  refine Carried.seq (jumpOverAligned_carried 16
    [.word (.address taken none), .word (.address otherwise none)] t) fun table t => ?_
  refine .position ((select_carried _ _ _ _ t).seq fun _ t => ?_)
  exact instruction_carried _ _ _ t

/-- A store looks up what its two expressions look up. -/
theorem store_carried (hr : r.Faithful) (target value : Expr) (s : State) :
    Carried r old (store target value) (store (target.rename r) (value.rename r)) s := by
  unfold store
  cases target with
  | unary op pointer info =>
      cases op with
      | deref =>
          rw [Expr.rename]
          refine .get ((expr_carried hr pointer s).seq fun _ t => ?_)
          refine (allocate_carried 1 info.site t).seq fun saved t => ?_
          refine (copyRange_carried _ _ _ t).seq fun _ t => (expr_carried hr value t).seq fun _ t => ?_
          exact (patched_carried _ _ _ t).seq fun _ t => release_carried _ t
      | plus | not | negate | complement => exact .throw rfl
  | int _ _ | str _ _ | «variable» _ _ | label _ _ | cast _ _ | binary _ _ _ _ | index _ _ _ =>
      exact .throw rfl

mutual

theorem mentionsLabel_rename : ∀ e : Expr, (e.rename r).mentionsLabel = e.mentionsLabel
  | .int .. | .str .. | .variable .. | .label .. => rfl
  | .cast operand _ | .unary _ operand _ => by
      simp only [Expr.rename, Expr.mentionsLabel, mentionsLabel_rename operand]
  | .binary _ left right _ => by
      simp only [Expr.rename, Expr.mentionsLabel, mentionsLabel_rename left,
        mentionsLabel_rename right]
  | .index base indices _ => by
      simp only [Expr.rename, Expr.mentionsLabel, mentionsLabel_rename base,
        anyMentionsLabel_rename indices]

theorem anyMentionsLabel_rename : ∀ es : List Expr,
    Expr.anyMentionsLabel (Expr.renameList r es) = Expr.anyMentionsLabel es
  | [] => rfl
  | e :: es => by
      simp only [Expr.renameList, Expr.anyMentionsLabel, mentionsLabel_rename e,
        anyMentionsLabel_rename es]

end

mutual

theorem strings_rename : ∀ e : Expr, (e.rename r).strings = e.strings
  | .int .. | .str .. | .variable .. | .label .. => rfl
  | .cast operand _ | .unary _ operand _ => by
      simp only [Expr.rename, Expr.strings, strings_rename operand]
  | .binary _ left right _ => by
      simp only [Expr.rename, Expr.strings, strings_rename left, strings_rename right]
  | .index base indices _ => by
      simp only [Expr.rename, Expr.strings, strings_rename base, listStrings_rename indices]

theorem listStrings_rename : ∀ es : List Expr,
    Expr.listStrings (Expr.renameList r es) = Expr.listStrings es
  | [] => rfl
  | e :: es => by
      simp only [Expr.renameList, Expr.listStrings, strings_rename e, listStrings_rename es]

end

theorem truncate_rename (value : Word128) (type : Ty) (site : Location) :
    Constant.truncate value (type.rename r) (site.rename r) =
      (Constant.truncate value type site).mapError (Fault.rename r) := by
  unfold Constant.truncate
  rw [Ty.width_rename]
  split
  · exact congrArg Except.error (noSize_rename type site)
  · split <;> rfl

theorem unary_rename (op : UnaryOp) (value : Word128) (site : Location) :
    Constant.unary op value (site.rename r) =
      (Constant.unary op value site).mapError (Fault.rename r) := by
  cases op <;> rfl

theorem binary_rename (op : BinaryOp) (a b : Word128) (site : Location) :
    Constant.binary op a b (site.rename r) =
      (Constant.binary op a b site).mapError (Fault.rename r) := by
  cases op <;> simp only [Constant.binary] <;> first | rfl | (split <;> rfl)

theorem mapError_bind {γ : Type} {x x' : Except Fault β} {f f' : β → Except Fault γ}
    (hx : x' = x.mapError (Fault.rename r))
    (hf : ∀ b, f' b = (f b).mapError (Fault.rename r)) :
    (x' >>= f') = (x >>= f).mapError (Fault.rename r) := by
  subst hx
  cases x with
  | ok b => exact hf b
  | error e => rfl

/-- Constants have the same value in two environments that agree on strings and on the labels in
question. -/
theorem evaluate_rename {env env' : Constant.Env} (among : Label → Prop)
    (hlabel : ∀ use site, (∀ l, use.target = some l → among l) →
      env'.label (use.rename r) (site.rename r) = (env.label use site).mapError (Fault.rename r))
    (hstring : ∀ text site,
      env'.string text (site.rename r) = (env.string text site).mapError (Fault.rename r)) :
    ∀ e : Expr, (e.LabelsIn among ∨ ∀ l, among l) →
      Constant.evaluate env' (e.rename r) = (Constant.evaluate env e).mapError (Fault.rename r)
  | .int .., _ => rfl
  | .str text info, _ => hstring text info.site
  | .label use info, h => by
      refine hlabel use info.site fun l hl => ?_
      rcases h with ⟨label, htarget, hamong⟩ | hall
      · rw [htarget, Option.some.injEq] at hl
        exact hl ▸ hamong
      · exact hall l
  | .variable .., _ => rfl
  | .index .., _ => rfl
  | .cast operand info, h => by
      rw [Expr.rename, Constant.evaluate, Constant.evaluate]
      refine mapError_bind (evaluate_rename among hlabel hstring operand (h.imp_left id)) fun value => ?_
      exact truncate_rename value info.type info.site
  | .unary op operand info, h => by
      rw [Expr.rename, Constant.evaluate, Constant.evaluate]
      refine mapError_bind (evaluate_rename among hlabel hstring operand (h.imp_left id)) fun value => ?_
      exact unary_rename op value info.site
  | .binary op left right info, h => by
      rw [Expr.rename, Constant.evaluate, Constant.evaluate]
      refine mapError_bind (evaluate_rename among hlabel hstring left (h.imp_left And.left)) fun a => ?_
      refine mapError_bind (evaluate_rename among hlabel hstring right (h.imp_left And.right)) fun b => ?_
      exact binary_rename op a b info.site

/-- A label that has an address has the same one in the carried state; without earlier bindings it
has none if it had none. -/
theorem address_carry (hr : r.Faithful) {s : State} {l : Label} (site : Option Location)
    (h : Bound s l ∨ old = .none) :
    (s.carry r old).address (.label (l.rename r)) (site.map (Location.rename r)) =
      (s.address (.label l) site).mapError (Fault.rename r) := by
  have hlookup : (s.carry r old).bindings.address? (l.rename r) = s.bindings.address? l := by
    refine (address?_carry hr.unit s.bindings l).trans ?_
    rcases h with hbound | rfl
    · obtain ⟨address, haddress⟩ := Option.isSome_iff_exists.mp hbound
      rw [haddress]
      rfl
    · exact Option.or_none
  unfold State.address
  dsimp only
  rw [hlookup]
  cases s.bindings.address? l with
  | some address => rfl
  | none =>
      refine congrArg Except.error ?_
      cases site <;> rfl

/-- The value of a constant depends on the addresses of its labels and strings only. -/
theorem constant_carry (hr : r.Faithful) {s : State} {value : Expr}
    (h : value.LabelsIn (Bound s) ∨ old = .none) :
    (s.carry r old).constant (value.rename r) = (s.constant value).mapError (Fault.rename r) := by
  have hvalue : Constant.evaluate (s.carry r old).env (value.rename r) =
      (Constant.evaluate s.env value).mapError (Fault.rename r) := by
    refine evaluate_rename (fun l => Bound s l ∨ old = .none) (fun use site hamong => ?_)
      (fun text site => ?_) value ?_
    · unfold State.env Constant.ofTarget LabelUse.rename
      dsimp only
      cases htarget : use.target with
      | none => rfl
      | some l =>
          have haddress := address_carry hr (some site) (hamong l htarget)
          rw [Option.map_some] at haddress ⊢
          dsimp only
          rw [haddress]
          cases s.address (.label l) (some site) <;> rfl
    · have hstrings : (s.carry r old).strings = s.strings := rfl
      unfold State.env
      dsimp only
      rw [hstrings]
      cases s.strings.lookup text <;> rfl
    · rcases h with hlabels | hold
      · exact Or.inl (hlabels.mono fun l hl => Or.inl hl)
      · exact Or.inr fun l => Or.inr hold
  unfold State.constant
  rw [hvalue]
  cases Constant.evaluate s.env value <;> rfl

/-- Words that are left open are renamed, those that are computed at once have the same values. -/
theorem words_carried (hr : r.Faithful) : ∀ (values : List Expr) (s : State),
    Carried r old (words values) (words (Expr.renameList r values)) s
  | [], _ => .pure _
  | value :: values, s => by
      rw [Expr.renameList, words, words, mentionsLabel_rename]
      have hrest := words_carried hr values
      split
      · exact (push_carried (.word (.constant value)) s).seq fun _ t => hrest t
      · rename_i hmentions
        have hlabels : value.LabelsIn (Bound s) :=
          labelsIn_of_mentionsLabel (Bool.eq_false_iff.mpr hmentions)
        refine .get ?_
        rw [constant_carry hr (Or.inl hlabels)]
        cases s.constant value with
        | ok n => exact Carried.seq (push_carried (.word (.known n)) s) fun _ t => hrest t
        | error e => exact Carried.seq (.throw rfl) fun _ t => hrest t

/-- By induction on the strings: each is placed, or was placed before, on both sides. -/
theorem strings_carried : ∀ (texts : List String) (s : State),
    Carried r old (texts.forM fun text => do let _ ← stringConstant text)
      (texts.forM fun text => do let _ ← stringConstant text) s
  | [], _ => .pure _
  | text :: texts, s => by
      show Carried r old ((do let _ ← stringConstant text) >>= fun _ => texts.forM _)
        ((do let _ ← stringConstant text) >>= fun _ => texts.forM _) s
      refine Carried.seq ?_ fun _ t => strings_carried texts t
      exact (stringConstant_carried text s).seq fun _ _ => .pure _

/-- The strings first and then the words, as they are emitted. -/
theorem rawWords_carried (hr : r.Faithful) (values : List Expr) (s : State) :
    Carried r old (rawWords values) (rawWords (Expr.renameList r values)) s := by
  unfold rawWords
  rw [listStrings_rename]
  exact (strings_carried _ s).seq fun _ t => words_carried hr values t

theorem alignTo_carried (align : Nat) (s : State) :
    Carried r old (alignTo align) (alignTo align) s := by
  unfold alignTo
  refine .position ?_
  dsimp only
  split
  · exact Carried.seq (jumpOver_carried [.bytes _] s) fun _ _ => .pure _
  · exact .pure _

/-! ## Statements

Binding and looking up meet here: a declaration binds its register before the statements behind it
look it up, in both runs alike. -/

theorem placeLabels_carried : ∀ (labels : List Label) (s : State),
    Carried r old (labels.forM placeLabel) ((labels.map (Label.rename r)).forM placeLabel) s
  | [], _ => .pure _
  | l :: labels, s => by
      show Carried r old (placeLabel l >>= fun _ => labels.forM placeLabel)
        (placeLabel (l.rename r) >>= fun _ => (labels.map (Label.rename r)).forM placeLabel) s
      exact (placeLabel_carried l s).seq fun _ t => placeLabels_carried labels t

/-- A variable is bound to a register. -/
theorem bind_carried (v : Variable) (n : Nat) (s : State) :
    Carried r old (modify fun s => { s with bindings := s.bindings.bind v n })
      (modify fun s => { s with bindings := s.bindings.bind (v.rename r) n }) s := .update rfl

mutual

/-- By induction on the statement, all its parts included. -/
theorem stmt_carried (hr : r.Faithful) : ∀ (st : Stmt) (s : State),
    Carried r old (stmt st) (stmt (st.rename r)) s
  | .mk labels act site, s => by
      rw [Stmt.rename, stmt, stmt]
      exact (placeLabels_carried labels s).seq fun _ t => action_carried hr act t

theorem stmts_carried (hr : r.Faithful) : ∀ (ss : List Stmt) (s : State),
    Carried r old (stmts ss) (stmts (Stmt.renameList r ss)) s
  | [], s => by
      rw [Stmt.renameList, stmts]
      exact .pure _
  | st :: ss, s => by
      rw [Stmt.renameList, stmts, stmts]
      exact (stmt_carried hr st s).seq fun _ t => stmts_carried hr ss t

theorem alternative_carried (hr : r.Faithful) (condition : Expr) (taken finish : Target)
    {body body' : Emitter Unit} (hbody : ∀ s, Carried r old body body' s) :
    ∀ (st : Option Stmt) (s : State),
      Carried r old (alternative condition taken finish body st)
        (alternative (condition.rename r) (taken.rename r) (finish.rename r) body'
          (Stmt.renameOption r st)) s
  | none, s => by
      rw [Stmt.renameOption, alternative, alternative]
      refine (branch_carried hr condition taken finish s).seq fun _ t => ?_
      exact (place_carried taken t).seq fun _ t => hbody t
  | some st, s => by
      rw [Stmt.renameOption, alternative, alternative]
      refine newPoint_carried _ fun serial t => ?_
      refine (branch_carried hr condition taken (.point "if.else" serial) t).seq fun _ t => ?_
      refine (place_carried taken t).seq fun _ t => (hbody t).seq fun _ t => ?_
      refine (jumpTo_carried finish t).seq fun _ t => ?_
      exact (place_carried (.point "if.else" serial) t).seq fun _ t => stmt_carried hr st t

/-- One case for each action; the parts of compound ones are given by the recursion. -/
theorem action_carried (hr : r.Faithful) : ∀ (act : Action) (s : State),
    Carried r old (action act) (action (act.rename r)) s
  | .nothing, s => by
      rw [Action.rename, action]
      exact .pure _
  | .place file, s => by
      rw [Action.rename, action, action]
      exact program_carried hr file s
  | .evaluate value, s => by
      rw [Action.rename, action, action]
      exact expr_carried hr value s
  | .goto target, s => by
      rw [Action.rename, action, action]
      refine (expr_carried hr target s).seq fun _ t => ?_
      refine Carried.seq (.position (.pure _)) fun n t => (patches_carried n _ t).seq fun _ t => ?_
      exact instruction_carried _ _ _ t
  | .define v value, s => by
      rw [Action.rename, action, action]
      refine (expr_carried hr value s).seq fun _ t => (allocate_carried 1 v.site t).seq fun n t => ?_
      exact (bind_carried v n t).seq fun _ t => copyRange_carried _ _ _ t
  | .reserve v, s => by
      rw [Action.rename, action, action]
      have hcount : (v.rename r).count = v.count := rfl
      rw [hcount]
      cases v.count with
      | some count => exact (allocate_carried count v.site s).seq fun n t => bind_carried v n t
      | none => exact .throw rfl
  | .assign target value, s => by
      rw [Action.rename, action, action]
      exact store_carried hr target value s
  | .block body, s => by
      rw [Action.rename, action, action]
      exact .get ((stmts_carried hr body s).seq fun _ t => release_carried _ t)
  | .branch condition taken otherwise, s => by
      rw [Action.rename, action, action]
      refine newPoint_carried _ fun n t => newPoint_carried _ fun m t => ?_
      have hbody := fun t => stmt_carried hr taken t
      refine Carried.seq (alternative_carried hr condition (.point "if.then" n) (.point "if.end" m)
        hbody otherwise t) fun _ t => ?_
      exact place_carried (.point "if.end" m) t
  | .loop condition body false, s => by
      rw [Action.rename, action, action]
      refine newPoint_carried _ fun n t => newPoint_carried _ fun m t => newPoint_carried _ fun k t => ?_
      refine (place_carried (.point "while.top" n) t).seq fun _ t => ?_
      refine Carried.seq (branch_carried hr condition (.point "while.body" m) (.point "while.end" k) t)
        fun _ t => ?_
      refine (place_carried (.point "while.body" m) t).seq fun _ t => ?_
      refine (stmt_carried hr body t).seq fun _ t => ?_
      refine (jumpTo_carried (.point "while.top" n) t).seq fun _ t => ?_
      exact place_carried (.point "while.end" k) t
  | .loop condition body true, s => by
      rw [Action.rename, action, action]
      refine newPoint_carried _ fun n t => newPoint_carried _ fun m t => ?_
      refine (place_carried (.point "do.top" n) t).seq fun _ t => ?_
      refine (stmt_carried hr body t).seq fun _ t => ?_
      refine Carried.seq (branch_carried hr condition (.point "do.top" n) (.point "do.end" m) t)
        fun _ t => ?_
      exact place_carried (.point "do.end" m) t
  | .words values, s => by
      rw [Action.rename, action, action]
      exact rawWords_carried hr values s

/-- Paths keep their keys under the renaming, so a file was placed in both runs or in neither. -/
theorem program_carried (hr : r.Faithful) : ∀ (file : Program) (s : State),
    Carried r old (program file) (program (file.rename r)) s
  | .mk path statements exports pragmas, s => by
      rw [Program.rename, program, program]
      dsimp only
      rw [hr.key]
      refine .get ?_
      show Carried r old _
        (if (!pragmas.multi && s.placed.contains path.key) = true then _ else _) s
      split
      · exact .pure _
      have hbody : ∀ t, Carried r old (alignTo pragmas.align >>= fun _ => stmts statements)
          (alignTo pragmas.align >>= fun _ => stmts (Stmt.renameList r statements)) t := fun t =>
        (alignTo_carried _ t).seq fun _ t => stmts_carried hr statements t
      split
      · exact Carried.seq (.update rfl) fun _ t => hbody t
      · exact hbody s

end

end Emit

end ByteJump
