import ByteJump.Emit.Stmt

set_option autoImplicit false

/-!
# Rules for emission

Many properties hold of emission because they hold of the parts it is put together from.  Such a
property has rules: it passes from parts to the whole, and it holds of the parts that the code of
expressions is made of.  From its rules it holds of expressions, stores and branches.

`Rules fit P` is the list of what has to be shown of a property `P`: that it passes through binds
and reads of the state, that it holds of the primitives that lay code down, and that it holds of
the faults an expression may be refused with.  `fit` restricts the expressions to those for which
the property is stated, and is handed down from an expression to its parts.  Whoever has these
rules gets expressions, stores and branches without another induction; properties that speak of
the state a computation starts from are walked separately, as they do not have this form.
-/

namespace ByteJump.Emit

open Assembly Memory

/-- Operands fit where the expression they belong to does. -/
structure Inherited (fit : Expr → Prop) : Prop where
  cast : ∀ {operand : Expr} {info : Info}, fit (.cast operand info) → fit operand
  unary : ∀ {op : UnaryOp} {operand : Expr} {info : Info}, fit (.unary op operand info) → fit operand
  binary : ∀ {op : BinaryOp} {left right : Expr} {info : Info}, fit (.binary op left right info) →
    fit left ∧ fit right

theorem inherited_true : Inherited fun _ => True :=
  ⟨fun _ => trivial, fun _ => trivial, fun _ => ⟨trivial, trivial⟩⟩

/-- A fault that no code is emitted with for an expression. -/
inductive Refusal (e : Expr) : Fault → Prop
  | unimplemented (what : String) : Refusal e (.unimplemented what (some e.site))
  | noSize (type : Ty) : Refusal e (Constant.noSize type e.site)
  | target : Refusal e (.unsupportedTarget e.site)

/-- Rules for a property of emission, as far as the expressions in it fit. -/
structure Rules (fit : Expr → Prop) (P : ∀ {α : Type}, Emitter α → Prop) : Prop where
  inherited : Inherited fit
  pure : ∀ {α : Type} {a : α}, P (Pure.pure a : Emitter α)
  bind : ∀ {α β : Type} {x : Emitter β} {f : β → Emitter α}, P x → (∀ b, P (f b)) → P (x >>= f)
  /-- nothing but the mark is looked at -/
  mark : ∀ {f : State → Emitter Unit}, (∀ s, P (f s)) →
    (∀ s t : State, s.mark = t.mark → f s = f t) → P (get >>= f)
  copy : ∀ source destination : Nat, P (copy source destination)
  patched : ∀ (fields : List (Nat × Nat)) (source destination : Nat),
    P (patched fields source destination)
  byteConstant : ∀ value : UInt8, P (byteConstant value)
  stringConstant : ∀ text : String, P (stringConstant text)
  release : ∀ mark : Nat, P (release mark)
  allocate : ∀ {e : Expr}, fit e → P (allocate 1 e.site)
  refuse : ∀ {α : Type} {e : Expr} {fault : Fault}, fit e → Refusal e fault →
    P (throw fault : Emitter α)
  /-- a variable is looked up -/
  register : ∀ {v : Variable} {info : Info} {f : Nat → Emitter Unit}, fit (.variable v info) →
    (∀ r, P (f r)) → P (do
      match (← get).bindings.register? v with
      | some r => f r
      | none => throw (.internal ("variable `" ++ v.name ++ "` has no register")))
  /-- the address of a label is laid down -/
  word : ∀ {use : LabelUse} {info : Info} {label : Label}, fit (.label use info) →
    use.target = some label → P (jumpOver [.word (.address (.label label) (some info.site))])
  unresolved : ∀ {use : LabelUse} {info : Info}, fit (.label use info) → use.target = none →
    P (throw (.unresolvedLabel use.name info.site) : Emitter Unit)

namespace Rules

variable {fit : Expr → Prop} {P : ∀ {α : Type}, Emitter α → Prop}

/-! ## Bytes -/

/-- By induction on the length. -/
theorem copyRange (R : Rules fit P) :
    ∀ length source destination, P (copyRange source destination length)
  | 0, _, _ => R.pure
  | length + 1, source, destination =>
      R.bind (R.copy source destination) fun _ => R.copyRange length _ _

theorem setByte (R : Rules fit P) (destination : Nat) (value : UInt8) :
    P (setByte destination value) :=
  R.bind (R.byteConstant value) fun source => R.copy source destination

/-- By induction on the number of bytes. -/
theorem setBytes (R : Rules fit P) :
    ∀ length destination value, P (setBytes destination length value)
  | 0, _, _ => R.pure
  | length + 1, destination, _ =>
      R.bind (R.setByte destination _) fun _ => R.setBytes length _ _

theorem clearFrom (R : Rules fit P) (width : Nat) : P (clearFrom width) := R.setBytes _ _ _

/-! ## Expressions

The one induction on expressions that all properties with rules share. -/

theorem widthOf (R : Rules fit P) {e : Expr} (he : fit e) (type : Ty) :
    P (widthOf type e.site) := by
  unfold Emit.widthOf
  cases type.width with
  | some width => exact R.pure
  | none => exact R.refuse he (.noSize type)

theorem countZeros (R : Rules fit P) (total flag : Nat) : ∀ count i, P (countZeros total flag count i)
  | 0, _ => R.pure
  | count + 1, i =>
      R.bind (R.patched _ _ _) fun _ => R.bind (R.patched _ _ _) fun _ =>
        R.countZeros total flag count (i + 1)

/-- The count of the zeros and the look-up behind it are primitives. -/
theorem logicalNot (R : Rules fit P) {e : Expr} (he : fit e) (width : Nat) :
    P (logicalNot width e.site) := by
  refine R.mark (fun s => R.bind (R.allocate he) fun scratch => ?_) fun s t h => by simp only [h]
  refine R.bind (R.setByte _ _) fun _ => R.bind (R.countZeros _ _ _ _) fun _ => ?_
  exact R.bind (R.patched _ _ _) fun _ => R.bind (R.clearFrom 1) fun _ => R.release s.mark

/-- One case for each kind of expression. -/
theorem expr (R : Rules fit P) : ∀ {e : Expr}, fit e → P (expr e)
  | .int value info, _ => by
      rw [Emit.expr]
      exact R.setBytes _ _ _
  | .str text info, _ => by
      rw [Emit.expr]
      refine R.bind (R.stringConstant text) fun address => ?_
      exact R.bind (R.setBytes _ _ _) fun _ => R.setBytes _ _ _
  | .variable v info, he => by
      rw [Emit.expr]
      cases v.count with
      | some count => exact R.refuse he (.unimplemented _)
      | none => exact R.register he fun r => R.copyRange _ _ _
  | .label use info, he => by
      rw [Emit.expr]
      cases htarget : use.target with
      | none => exact R.unresolved he htarget
      | some label =>
          refine R.bind (R.word he htarget) fun address => ?_
          exact R.bind (R.copyRange _ _ _) fun _ => R.clearFrom _
  | .cast operand info, he => by
      rw [Emit.expr]
      refine R.bind (R.expr (R.inherited.cast he)) fun _ => R.bind (R.widthOf he _) fun width => ?_
      split
      · exact R.clearFrom width
      · exact R.pure
  | .unary op operand info, he => by
      have hoperand := R.inherited.unary he
      cases op with
      | plus =>
          rw [Emit.expr]
          exact R.expr hoperand
      | not =>
          rw [Emit.expr]
          refine R.bind (R.expr hoperand) fun _ => R.bind (R.widthOf hoperand _) fun width => ?_
          exact R.logicalNot he width
      | deref =>
          rw [Emit.expr]
          refine R.bind (R.expr hoperand) fun _ => R.bind (R.patched _ _ _) fun _ => ?_
          exact R.clearFrom 1
      | negate | complement =>
          rw [Emit.expr]
          exact R.refuse he (.unimplemented _)
  | .binary op left right info, he => by
      obtain ⟨hleft, hright⟩ := R.inherited.binary he
      rw [Emit.expr]
      refine R.bind (R.widthOf he _) fun width => ?_
      split
      · exact R.refuse he (.unimplemented _)
      split
      · exact R.refuse he (.unimplemented _)
      refine R.mark (fun s => R.bind (R.expr hleft) fun _ => ?_) fun s t h => by simp only [h]
      refine R.bind (R.allocate he) fun saved => R.bind (R.copy _ _) fun _ => ?_
      refine R.bind (R.expr hright) fun _ => R.bind (R.patched _ _ _) fun _ => ?_
      exact R.bind (R.clearFrom 1) fun _ => R.release s.mark
  | .index base indices info, he => by
      rw [Emit.expr]
      exact R.refuse he (.unimplemented _)

/-! ## Stores and branches -/

/-- The pointer is saved in between; a target that is no dereference is refused. -/
theorem store (R : Rules fit P) {target value : Expr} (htarget : fit target) (hvalue : fit value) :
    P (store target value) := by
  unfold Emit.store
  split
  · have hpointer := R.inherited.unary htarget
    refine R.mark (fun s => R.bind (R.expr hpointer) fun _ => ?_) fun s t h => by simp only [h]
    refine R.bind (R.allocate htarget) fun saved => R.bind (R.copyRange _ _ _) fun _ => ?_
    refine R.bind (R.expr hvalue) fun _ => R.bind (R.patched _ _ _) fun _ => ?_
    exact R.release s.mark
  · exact R.refuse htarget .target

/-- The table of a branch and the code that chooses from it have rules of their own. -/
theorem branch (R : Rules fit P) {condition : Expr} (he : fit condition) {taken otherwise : Target}
    (htable : P (do
      let table ← jumpOverAligned 16
        [.word (.address taken none), .word (.address otherwise none)]
      let jump := (← position) + addressSize * 3 * instructionSize
      select table jump addressSize 0
      instruction 0 0 0)) :
    P (branch condition taken otherwise) :=
  R.bind (R.expr he) fun _ => R.bind (R.widthOf he _) fun width =>
    R.bind (R.logicalNot he width) fun _ => htable

end Rules

end ByteJump.Emit
