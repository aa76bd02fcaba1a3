import ByteJump.Proofs.Emit.Moves

set_option autoImplicit false

/-!
# Registers that code needs

How many registers a program needs is counted without laying down any code, along the way emission
takes through it.  A variable keeps its registers up to the end of the block it is defined in, and a
file that is placed only once is counted where it is placed.

Emission counts the same: it ends with the mark and the largest mark that are counted, or with a fault,
and this is that there are too few registers only if more are needed than there are.

`Usage` is what counting needs of the state: the mark, the largest mark so far, and the files that
were placed.  The count of a program is a recursion on its text with nothing of the emission in
it.  `Course x t t'` ties the two together for a computation: from a state with usage `t` it ends
with usage `t'`, or fails; and if it fails for want of registers, then `t'` needs more than there
are.  For a bind this needs that counting only ever goes up, so that what an inner part needs the
whole needs as well, and that is the second section.
-/

namespace ByteJump

open Memory

/-! ## What is needed

An expression needs registers while it is computed, and gives all of them back.  So it only
reaches up from the mark, and a statement behind it starts at the same mark again. -/

/-- What is counted of registers: the first one that is free, how many were in use at once, and the
files that are not placed again. -/
structure Usage where
  mark : Nat
  highest : Nat
  placed : List Path.Key
  deriving DecidableEq, Repr

namespace Usage

/-- Nothing is counted yet. -/
def start : Usage := ⟨0, 0, []⟩

/-- Registers above the mark are used, and free again afterwards. -/
def reach (t : Usage) (count : Nat) : Usage :=
  { t with highest := max t.highest (t.mark + count) }

/-- Registers above the mark are taken for what follows. -/
def take (t : Usage) (count : Nat) : Usage := { t.reach count with mark := t.mark + count }

/-- The registers from an earlier mark on are free again. -/
def release (t : Usage) (mark : Nat) : Usage := { t with mark := mark }

/-- The file was placed before and is not placed again. -/
def skips (t : Usage) (file : Path) (pragmas : Pragmas) : Bool :=
  !pragmas.multi && t.placed.contains file.key

/-- A file is about to be placed. -/
def enter (t : Usage) (file : Path) (pragmas : Pragmas) : Usage :=
  if pragmas.multi then t else { t with placed := file.key :: t.placed }

end Usage

/-- The registers above the mark that evaluating an expression uses.  For what is not supported no
code is emitted. -/
def Expr.need : Expr → Nat
  | .int .. | .str .. | .variable .. | .label .. | .index .. => 0
  | .cast operand _ => operand.need
  | .unary .plus operand _ | .unary .deref operand _ => operand.need
  | .unary .not operand _ => max operand.need 1
  | .unary .negate _ _ | .unary .complement _ _ => 0
  | .binary op left right info =>
      if op = .add ∧ info.type.width = some 1 then max left.need (1 + right.need) else 0

/-- The registers above the mark that a store uses. -/
def Expr.storeNeed (target value : Expr) : Nat :=
  match target with
  | .unary .deref pointer _ => max pointer.need (1 + value.need)
  | _ => 0

mutual

/-- What is counted behind a statement. -/
def Stmt.usage : Stmt → Usage → Usage
  | .mk _ act _, t => Action.usage act t

/-- What is counted behind statements in order. -/
def Stmt.listUsage : List Stmt → Usage → Usage
  | [], t => t
  | s :: ss, t => Stmt.listUsage ss (Stmt.usage s t)

/-- What is counted behind a statement that may be absent. -/
def Stmt.optionUsage : Option Stmt → Usage → Usage
  | some s, t => Stmt.usage s t
  | none, t => t

/-- What is counted behind an action. -/
def Action.usage : Action → Usage → Usage
  | .nothing, t | .words _, t => t
  | .place file, t => Program.usage file t
  | .evaluate value, t => t.reach value.need
  | .goto target, t => t.reach target.need
  | .define _ value, t => (t.reach (max value.need 1)).take 1
  | .reserve v, t => t.take (v.count.getD 0)
  | .assign target value, t => t.reach (target.storeNeed value)
  | .block body, t => (Stmt.listUsage body t).release t.mark
  | .branch condition taken otherwise, t =>
      Stmt.optionUsage otherwise (Stmt.usage taken (t.reach (max condition.need 1)))
  | .loop condition body false, t => Stmt.usage body (t.reach (max condition.need 1))
  | .loop condition body true, t => (Stmt.usage body t).reach (max condition.need 1)

/-- What is counted behind a file. -/
def Program.usage : Program → Usage → Usage
  | .mk file statements _ pragmas, t =>
      if t.skips file pragmas then t else Stmt.listUsage statements (t.enter file pragmas)

end

/-- The registers a program needs: the most that are in use at once. -/
def Program.need (p : Program) : Nat := (Stmt.listUsage p.statements .start).highest

/-! ## Counting goes up -/

namespace Usage

variable {t : Usage} {count m : Nat}

/-- Entering a file takes no registers. -/
theorem highest_enter (file : Path) (pragmas : Pragmas) :
    (t.enter file pragmas).highest = t.highest := by
  unfold enter
  split <;> rfl

/-- Registers that are used one time and another time above the same mark. -/
theorem reach_reach (count' : Nat) : (t.reach count).reach count' = t.reach (max count count') := by
  simp only [reach, Usage.mk.injEq, true_and, and_true]
  omega

/-- What is saved in a register while more is evaluated. -/
theorem release_reach_take (count' : Nat) :
    (((t.reach count).take 1).reach count').release t.mark = t.reach (max count (1 + count')) := by
  simp only [release, reach, take, Usage.mk.injEq, true_and, and_true]
  omega

/-- What is used before the same number is taken is no more to count. -/
theorem reach_take : (t.reach count).take 1 = (t.reach (max count 1)).take 1 := by
  simp only [reach, take, Usage.mk.injEq, true_and, and_true]
  omega

/-- Reaching up never lowers what was reached. -/
theorem le_reach : t.highest ≤ (t.reach count).highest := Nat.le_max_left _ _

theorem le_take : t.highest ≤ (t.take count).highest := Nat.le_max_left _ _

theorem le_saved (count count' : Nat) :
    t.highest ≤ (((t.reach count).take 1).reach count').highest :=
  le_reach.trans (le_take.trans le_reach)

/-- The mark is not above the largest one, and this one is possible. -/
structure Within (t : Usage) : Prop where
  mark : t.mark ≤ t.highest
  highest : t.highest ≤ registerCount

/-- To reach no further is to do nothing. -/
theorem reach_zero (h : t.Within) : t.reach 0 = t := by
  have hmark := h.mark
  cases t
  simp only [reach, Usage.mk.injEq, true_and, and_true]
  dsimp only at hmark
  omega

end Usage

mutual

/-- By induction on the text, with one case for each action. -/
theorem Stmt.le_usage : ∀ (st : Stmt) (t : Usage), t.highest ≤ (Stmt.usage st t).highest
  | .mk _ act _, t => by
      rw [Stmt.usage]
      exact Action.le_usage act t

theorem Stmt.le_listUsage :
    ∀ (ss : List Stmt) (t : Usage), t.highest ≤ (Stmt.listUsage ss t).highest
  | [], t => by
      rw [Stmt.listUsage]
  | st :: ss, t => by
      rw [Stmt.listUsage]
      exact Nat.le_trans (Stmt.le_usage st t) (Stmt.le_listUsage ss _)

theorem Stmt.le_optionUsage :
    ∀ (o : Option Stmt) (t : Usage), t.highest ≤ (Stmt.optionUsage o t).highest
  | none, t => by
      rw [Stmt.optionUsage]
  | some st, t => by
      rw [Stmt.optionUsage]
      exact Stmt.le_usage st t

theorem Action.le_usage : ∀ (act : Action) (t : Usage), t.highest ≤ (Action.usage act t).highest
  | .nothing, t | .words _, t => by
      rw [Action.usage]
  | .place file, t => by
      rw [Action.usage]
      exact Program.le_usage file t
  | .evaluate _, t | .goto _, t | .assign _ _, t => by
      rw [Action.usage]
      exact Usage.le_reach
  | .reserve _, t => by
      rw [Action.usage]
      exact Usage.le_take
  | .define _ _, t => by
      rw [Action.usage]
      exact Nat.le_trans Usage.le_reach Usage.le_take
  | .block body, t => by
      rw [Action.usage]
      exact Stmt.le_listUsage body t
  | .branch _ taken otherwise, t => by
      rw [Action.usage]
      exact Nat.le_trans Usage.le_reach
        (Nat.le_trans (Stmt.le_usage taken _) (Stmt.le_optionUsage otherwise _))
  | .loop _ body false, t => by
      rw [Action.usage]
      exact Nat.le_trans Usage.le_reach (Stmt.le_usage body _)
  | .loop _ body true, t => by
      rw [Action.usage]
      exact Nat.le_trans (Stmt.le_usage body t) Usage.le_reach

theorem Program.le_usage : ∀ (p : Program) (t : Usage), t.highest ≤ (Program.usage p t).highest
  | .mk file statements _ pragmas, t => by
      rw [Program.usage]
      split
      · exact Nat.le_refl _
      · exact Nat.le_trans (Nat.le_of_eq (Usage.highest_enter _ _).symm)
          (Stmt.le_listUsage statements _)

end

namespace Emit

open Assembly Relation

variable {α β : Type}

/-! ## Emission counts the same

Code that only lays pieces down has no influence on the usage, and this covers most of the
primitives. -/

/-- What is counted when a state is reached. -/
def State.usage (s : State) : Usage := ⟨s.mark, s.highest, s.placed⟩

/-- Where one count is reached emission ends with another one, or with a fault; this is that there
are too few registers only if more are counted than there are. -/
structure Course (x : Emitter α) (t t' : Usage) : Prop where
  run : ∀ s : State, s.usage = t → t.Within →
    match x s with
    | .ok _ u => u.usage = t' ∧ t'.Within
    | .error e _ => e.isRegisters = true → registerCount < t'.highest

theorem Puts.usage {s t : State} (h : Puts s t) : t.usage = s.usage := by
  rcases h with h | _ | _
  · cases h
    rfl
  · rfl
  · rfl

/-- Laying down code takes no registers. -/
theorem usage_of_puts {s t : State} (h : ReflTransGen Puts s t) : t.usage = s.usage := by
  induction h with
  | refl => rfl
  | tail _ hstep ih => exact (Puts.usage hstep).trans ih

section Rules

variable {t t' t₁ : Usage}

theorem Laying.course {x : Emitter α} (h : Laying Puts x) : Course x t t := by
  refine ⟨fun s hs hwithin => ?_⟩
  have hrun := h.run s
  cases hx : x s with
  | ok a u =>
      rw [hx] at hrun
      exact ⟨(usage_of_puts hrun).trans hs, hwithin⟩
  | error e u =>
      rw [hx] at hrun
      exact fun hregisters => nomatch hrun.2.symm.trans hregisters

theorem Course.of_within {x : Emitter α} (h : t.Within → Course x t t') : Course x t t' :=
  ⟨fun s hs hwithin => (h hwithin).run s hs hwithin⟩

theorem Course.of_eq {x : Emitter α} (h : Course x t t₁) (heq : t₁ = t') : Course x t t' := heq ▸ h

theorem Course.pure {a : α} : Course (Pure.pure a : Emitter α) t t := Laying.pure.course

/-- Faults of other kinds say nothing about registers. -/
theorem Course.throw {e : Fault} (h : e.isRegisters = false) :
    Course (MonadExcept.throw e : Emitter α) t t' :=
  ⟨fun _ _ _ hregisters => nomatch h.symm.trans hregisters⟩

/-- The fault of a part is a fault of the whole, so the part may not need more than the whole. -/
theorem Course.bind {x : Emitter β} {f : β → Emitter α} (h : Course x t t₁)
    (hle : t₁.highest ≤ t'.highest) (hf : ∀ b, Course (f b) t₁ t') : Course (x >>= f) t t' := by
  refine ⟨fun s hs hwithin => ?_⟩
  have hx := h.run s hs hwithin
  cases hrun : x s with
  | ok b u =>
      rw [hrun] at hx
      rw [run_bind hrun]
      exact (hf b).run u hx.1 hx.2
  | error e u =>
      rw [hrun] at hx
      rw [run_bind_error hrun]
      exact fun hregisters => Nat.lt_of_lt_of_le (hx hregisters) hle

/-- Code is laid down in front. -/
theorem Laying.andThen {x : Emitter β} {f : β → Emitter α} (h : Laying Puts x)
    (hle : t.highest ≤ t'.highest) (hf : ∀ b, Course (f b) t t') : Course (x >>= f) t t' :=
  h.course.bind hle hf

/-- Code is laid down behind. -/
theorem Course.before {x : Emitter β} {f : β → Emitter α} (h : Course x t t')
    (hf : ∀ b, Laying Puts (f b)) : Course (x >>= f) t t' :=
  h.bind (Nat.le_refl _) fun b => (hf b).course

theorem Course.get {f : State → Emitter α} (h : ∀ s : State, s.usage = t → Course (f s) t t') :
    Course (MonadState.get >>= f) t t' := ⟨fun s hs => (h s hs).run s hs⟩

theorem Course.update {f : State → State} (h : ∀ s, (f s).usage = s.usage) :
    Course (modify f : Emitter PUnit) t t :=
  ⟨fun s hs hwithin => ⟨(h s).trans hs, hwithin⟩⟩

theorem Course.reach_zero {x : Emitter α} (h : Course x t t) : Course x t (t.reach 0) :=
  .of_within fun hwithin => h.of_eq (Usage.reach_zero hwithin).symm

end Rules

theorem mark_of_usage {s : State} {t : Usage} (h : s.usage = t) : s.mark = t.mark := h ▸ rfl

/-! ## Registers -/

section Registers

variable {t : Usage}

/-- There are too few registers exactly if the mark would go beyond their number. -/
theorem allocate_course (count : Nat) (site : Location) :
    Course (allocate count site) t (t.take count) := by
  refine .get fun s hs => ?_
  subst hs
  dsimp only
  split
  · rename_i hle
    refine ⟨fun u hu hwithin => ?_⟩
    have hhighest := hwithin.highest
    simp only [State.usage, Usage.mk.injEq] at hu
    obtain ⟨-, hsame, hplaced⟩ := hu
    refine ⟨?_, Nat.le_max_right _ _, Nat.max_le.mpr ⟨hhighest, hle⟩⟩
    show Usage.mk (s.mark + count) (max u.highest (s.mark + count)) u.placed = _
    rw [hsame, hplaced]
    rfl
  · rename_i hgt
    exact ⟨fun u hu _ _ => Nat.lt_of_lt_of_le (Nat.lt_of_not_le hgt) (Nat.le_max_right _ _)⟩

theorem release_course {mark : Nat} (h : t.Within → mark ≤ t.highest) :
    Course (release mark) t (t.release mark) := by
  refine ⟨fun s hs hwithin => ?_⟩
  subst hs
  exact ⟨rfl, h hwithin, hwithin.highest⟩

/-- One register is taken and given back. -/
theorem logicalNot_course (width : Nat) (site : Location) :
    Course (logicalNot width site) t (t.reach 1) := by
  unfold logicalNot
  dsimp only
  refine .of_within fun hwithin => .get fun s hs => ?_
  rw [mark_of_usage hs]
  refine (allocate_course 1 site).bind (Nat.le_refl _) fun scratch => ?_
  refine (setByte_laying _ _).andThen (Nat.le_refl _) fun _ => ?_
  refine (countZeros_laying _ _ _ _).andThen (Nat.le_refl _) fun _ => ?_
  refine (patched_laying _ _ _).andThen (Nat.le_refl _) fun _ => ?_
  refine (clearFrom_laying 1).andThen (Nat.le_refl _) fun _ => ?_
  exact release_course fun _ => Nat.le_trans hwithin.mark Usage.le_take

end Registers

/-! ## Expressions -/

theorem unary_course (op : UnaryOp) {operand : Expr} (info : Info) {t : Usage}
    (hoperand : Course (expr operand) t (t.reach operand.need)) :
    Course (expr (.unary op operand info)) t (t.reach (Expr.need (.unary op operand info))) := by
  cases op with
  | plus =>
      rw [expr]
      exact hoperand
  | not =>
      rw [expr, Expr.need, ← Usage.reach_reach]
      refine hoperand.bind Usage.le_reach fun _ => ?_
      exact (widthOf_laying _ _).andThen Usage.le_reach fun _ => logicalNot_course _ _
  | deref =>
      rw [expr]
      exact hoperand.before fun _ => (patched_laying _ _ _).bind fun _ => clearFrom_laying 1
  | negate | complement =>
      rw [expr]
      exact .throw rfl

/-- While the right operand is computed one more register is in use than for the left one. -/
theorem binary_course (op : BinaryOp) {left right : Expr} (info : Info) {t : Usage}
    (hleft : ∀ {t : Usage}, Course (expr left) t (t.reach left.need))
    (hright : ∀ {t : Usage}, Course (expr right) t (t.reach right.need)) :
    Course (expr (.binary op left right info)) t
      (t.reach (Expr.need (.binary op left right info))) := by
  rw [expr, Expr.need]
  cases hwidth : info.type.width with
  | none =>
      simp only [widthOf, hwidth]
      exact ⟨fun _ _ _ hregisters => absurd hregisters Bool.false_ne_true⟩
  | some width =>
  simp only [widthOf, hwidth, pure_bind]
  split
  · exact .throw rfl
  rename_i hop
  split
  · exact .throw rfl
  rename_i hone
  rw [if_pos ⟨Decidable.of_not_not hop, congrArg some (Decidable.of_not_not hone)⟩,
    ← Usage.release_reach_take]
  refine .of_within fun hwithin => .get fun s hs => ?_
  rw [mark_of_usage hs]
  refine hleft.bind (Nat.le_trans Usage.le_take Usage.le_reach) fun _ => ?_
  refine (allocate_course 1 _).bind Usage.le_reach fun saved => ?_
  refine (copy_laying _ _).andThen Usage.le_reach fun _ => ?_
  refine hright.bind (Nat.le_refl _) fun _ => ?_
  refine (patched_laying _ _ _).andThen (Nat.le_refl _) fun _ => ?_
  refine (clearFrom_laying 1).andThen (Nat.le_refl _) fun _ => ?_
  exact release_course fun _ => hwithin.mark.trans (Usage.le_saved left.need right.need)

/-- By induction on the expression; only a sum keeps a register while another expression is
computed. -/
theorem expr_course : ∀ (e : Expr) {t : Usage}, Course (expr e) t (t.reach e.need)
  | .int value info, t => by
      rw [expr]
      exact (setBytes_laying _ _ _).course.reach_zero
  | .str text info, t => by
      rw [expr]
      exact ((stringConstant_laying text).bind fun _ => (setBytes_laying _ _ _).bind fun _ =>
        setBytes_laying _ _ _).course.reach_zero
  | .variable v info, t => by
      rw [expr]
      refine Course.reach_zero ?_
      cases v.count with
      | some count => exact .throw rfl
      | none =>
          refine .get fun s _ => ?_
          cases s.bindings.register? v with
          | some r => exact (copyRange_laying _ _ _).course
          | none => exact .throw rfl
  | .label use info, t => by
      rw [expr]
      cases use.target with
      | none => exact .throw rfl
      | some label =>
          exact ((labelWord_laying label info.site).bind fun _ => (copyRange_laying _ _ _).bind
            fun _ => clearFrom_laying _).course.reach_zero
  | .cast operand info, t => by
      rw [expr, Expr.need]
      refine (expr_course operand).before fun _ => (widthOf_laying _ _).bind fun width => ?_
      split
      · exact clearFrom_laying _
      · exact .pure
  | .unary op operand info, t => unary_course op info (expr_course operand)
  | .binary op left right info, t => binary_course op info (expr_course left) (expr_course right)
  | .index base indices info, t => by
      rw [expr]
      exact .throw rfl

/-- The pointer is kept while the value is computed. -/
theorem store_course (target value : Expr) {t : Usage} :
    Course (store target value) t (t.reach (target.storeNeed value)) := by
  unfold store
  split
  · rename_i pointer info
    rw [Expr.storeNeed, ← Usage.release_reach_take]
    refine .of_within fun hwithin => .get fun s hs => ?_
    rw [mark_of_usage hs]
    refine (expr_course pointer).bind (Usage.le_take.trans Usage.le_reach) fun _ => ?_
    refine (allocate_course 1 _).bind Usage.le_reach fun saved => ?_
    refine (copyRange_laying _ _ _).andThen Usage.le_reach fun _ => ?_
    refine (expr_course value).bind (Nat.le_refl _) fun _ => ?_
    refine (patched_laying _ _ _).andThen (Nat.le_refl _) fun _ => ?_
    exact release_course fun _ => hwithin.mark.trans (Usage.le_saved pointer.need value.need)
  · exact .throw rfl

theorem branch_course (condition : Expr) (taken otherwise : Target) {t : Usage} :
    Course (branch condition taken otherwise) t (t.reach (max condition.need 1)) := by
  unfold branch
  rw [← Usage.reach_reach]
  refine (expr_course condition).bind Usage.le_reach fun _ => ?_
  refine (widthOf_laying _ _).andThen Usage.le_reach fun width => ?_
  exact (logicalNot_course _ _).before fun _ => branchTable_laying taken otherwise

/-! ## Statements -/

theorem forM_placeLabel_course (t : Usage) :
    ∀ labels : List Label, Course (labels.forM placeLabel) t t
  | [] => .pure
  | _ :: labels =>
      Course.bind (Course.update fun _ => rfl) (Nat.le_refl _) fun _ =>
        forM_placeLabel_course t labels

theorem newPoint_course (role : String) {t : Usage} : Course (newPoint role) t t :=
  .get fun _ _ => Course.bind (Course.update fun _ => rfl) (Nat.le_refl _) fun _ => .pure

theorem place_course {t : Usage} : ∀ target : Target, Course (place target) t t
  | .label _ => .update fun _ => rfl
  | .point _ _ => .update fun _ => rfl

/-- The value is computed with the registers that are free, and then one is taken for good. -/
theorem define_course (v : Variable) (value : Expr) {t : Usage} :
    Course (action (.define v value)) t (Action.usage (.define v value) t) := by
  rw [action, Action.usage, ← Usage.reach_take]
  refine (expr_course value).bind Usage.le_take fun _ => ?_
  refine (allocate_course 1 _).bind (Nat.le_refl _) fun r => ?_
  refine Course.bind (Course.update fun _ => rfl) (Nat.le_refl _) fun _ => ?_
  exact (copyRange_laying _ _ _).course

theorem reserve_course (v : Variable) {t : Usage} :
    Course (action (.reserve v)) t (Action.usage (.reserve v) t) := by
  rw [action, Action.usage]
  cases v.count with
  | some count =>
      exact (allocate_course count _).bind (Nat.le_refl _) fun r => .update fun _ => rfl
  | none => exact .throw rfl

/-- The body is counted once, as it is emitted once. -/
theorem loop_course (condition : Expr) {body : Stmt}
    (hbody : ∀ {t : Usage}, Course (stmt body) t (Stmt.usage body t)) :
    ∀ (bodyFirst : Bool) {t : Usage},
      Course (action (.loop condition body bodyFirst)) t
        (Action.usage (.loop condition body bodyFirst) t)
  | false, t => by
      rw [action, Action.usage]
      have hle := Stmt.le_usage body (t.reach (max condition.need 1))
      have hall := Usage.le_reach.trans hle
      refine (newPoint_course _).bind hall fun top => ?_
      refine (newPoint_course _).bind hall fun start => ?_
      refine (newPoint_course _).bind hall fun finish => ?_
      refine (place_course _).bind hall fun _ => ?_
      refine (branch_course _ _ _).bind hle fun _ => ?_
      refine (place_course _).bind hle fun _ => ?_
      refine hbody.bind (Nat.le_refl _) fun _ => ?_
      refine (jumpTo_laying _).andThen (Nat.le_refl _) fun _ => ?_
      exact place_course _
  | true, t => by
      rw [action, Action.usage]
      have hall : t.highest ≤ ((Stmt.usage body t).reach (max condition.need 1)).highest :=
        (Stmt.le_usage body t).trans Usage.le_reach
      refine (newPoint_course _).bind hall fun top => ?_
      refine (newPoint_course _).bind hall fun finish => ?_
      refine (place_course _).bind hall fun _ => ?_
      refine hbody.bind Usage.le_reach fun _ => ?_
      refine (branch_course _ _ _).bind (Nat.le_refl _) fun _ => ?_
      exact place_course _

mutual

theorem stmt_course : ∀ (st : Stmt) {t : Usage}, Course (stmt st) t (Stmt.usage st t)
  | .mk labels act _, t => by
      rw [stmt, Stmt.usage]
      exact (forM_placeLabel_course t labels).bind (Action.le_usage act t) fun _ =>
        action_course act

theorem stmts_course : ∀ (ss : List Stmt) {t : Usage}, Course (stmts ss) t (Stmt.listUsage ss t)
  | [], t => by
      rw [stmts, Stmt.listUsage]
      exact .pure
  | st :: ss, t => by
      rw [stmts, Stmt.listUsage]
      exact (stmt_course st).bind (Stmt.le_listUsage ss _) fun _ => stmts_course ss

theorem alternative_course (condition : Expr) (taken finish : Target) (body : Stmt)
    (hbody : ∀ {t : Usage}, Course (stmt body) t (Stmt.usage body t)) :
    ∀ (otherwise : Option Stmt) {t : Usage},
      Course (alternative condition taken finish (stmt body) otherwise) t
        (Stmt.optionUsage otherwise (Stmt.usage body (t.reach (max condition.need 1))))
  | some st, t => by
      rw [alternative, Stmt.optionUsage]
      have hbranch := (Stmt.le_usage body (t.reach (max condition.need 1))).trans
        (Stmt.le_usage st _)
      refine (newPoint_course _).bind (Usage.le_reach.trans hbranch) fun other => ?_
      refine (branch_course _ _ _).bind hbranch fun _ => ?_
      refine (place_course _).bind hbranch fun _ => ?_
      refine hbody.bind (Stmt.le_usage st _) fun _ => ?_
      refine (jumpTo_laying _).andThen (Stmt.le_usage st _) fun _ => ?_
      exact (place_course _).bind (Stmt.le_usage st _) fun _ => stmt_course st
  | none, t => by
      rw [alternative, Stmt.optionUsage]
      have hle := Stmt.le_usage body (t.reach (max condition.need 1))
      refine (branch_course _ _ _).bind hle fun _ => ?_
      exact (place_course _).bind hle fun _ => hbody

/-- One case for each action. -/
theorem action_course : ∀ (act : Action) {t : Usage}, Course (action act) t (Action.usage act t)
  | .nothing, t => by
      rw [action, Action.usage]
      exact .pure
  | .place file, t => by
      rw [action, Action.usage]
      exact program_course file
  | .evaluate value, t => by
      rw [action, Action.usage]
      exact expr_course value
  | .goto target, t => by
      rw [action, Action.usage]
      exact (expr_course target).before fun _ => goto_laying
  | .define v value, t => define_course v value
  | .reserve v, t => reserve_course v
  | .assign target value, t => by
      rw [action, Action.usage]
      exact store_course target value
  | .block body, t => by
      rw [action, Action.usage]
      have hbody : Course (stmts body) t (Stmt.listUsage body t) := stmts_course body
      refine .of_within fun hwithin => .get fun s hs => ?_
      rw [mark_of_usage hs]
      refine hbody.bind (Nat.le_refl _) fun _ => release_course fun _ => ?_
      exact hwithin.mark.trans (Stmt.le_listUsage body t)
  | .branch condition taken otherwise, t => by
      rw [action, Action.usage]
      have htaken : ∀ {t : Usage}, Course (stmt taken) t (Stmt.usage taken t) := stmt_course taken
      have hall := Usage.le_reach.trans ((Stmt.le_usage taken (t.reach (max condition.need 1))).trans
        (Stmt.le_optionUsage otherwise _))
      refine (newPoint_course _).bind hall fun start => ?_
      refine (newPoint_course _).bind hall fun finish => ?_
      refine (alternative_course _ _ _ _ htaken otherwise).bind (Nat.le_refl _) fun _ => ?_
      exact place_course _
  | .loop condition body bodyFirst, t => loop_course condition (stmt_course body) bodyFirst
  | .words values, t => by
      rw [action, Action.usage]
      exact (rawWords_laying values).course

/-- A file that is placed already is counted no second time. -/
theorem program_course : ∀ (p : Program) {t : Usage}, Course (program p) t (Program.usage p t)
  | .mk file statements _ pragmas, t => by
      rw [program, Program.usage]
      have hstatements : ∀ {t : Usage}, Course (stmts statements) t (Stmt.listUsage statements t) :=
        stmts_course statements
      have hcode : ∀ {t : Usage}, Course (alignTo pragmas.align >>= fun _ => stmts statements) t
          (Stmt.listUsage statements t) :=
        (alignTo_laying _).andThen (Stmt.le_listUsage statements _) fun _ => hstatements
      refine .get fun s hs => ?_
      subst hs
      have hskips : s.usage.skips file pragmas = (!pragmas.multi && s.placed.contains file.key) := rfl
      rw [hskips]
      dsimp only
      split
      · exact .pure
      unfold Usage.enter
      cases pragmas.multi with
      | true => exact hcode
      | false =>
          refine Course.bind ?_ (Stmt.le_listUsage statements _) fun _ => hcode
          refine ⟨fun u hu hwithin => ?_⟩
          simp only [State.usage, Usage.mk.injEq] at hu
          obtain ⟨hmark, hhighest, hplaced⟩ := hu
          show Usage.mk u.mark u.highest (file.key :: u.placed) = _ ∧ _
          rw [hmark, hhighest, hplaced]
          exact ⟨rfl, hwithin.mark, hwithin.highest⟩

end

end Emit

end ByteJump
