import ByteJump.Proofs.Emit.Registers
import ByteJump.Proofs.Run.Forks

set_option autoImplicit false

/-!
# Where expressions are emitted

A statement asks for the values of some expressions, and each of these for the values of its parts.
Where the code of an expression is emitted the state is good, the variables in scope have registers
below the mark, and the code stays where it is.

`Asks act s e u` lists the expressions a statement evaluates itself, each with the state its code
is emitted at: the condition of a loop behind the points, the value of a store behind the pointer
that was saved.  `Part` goes down from there to the parts of an expression.  `Stays` collects what
is known at such a place, and is inherited by all parts, by induction on `Part`.  Conditions are
the difficult case, because they are emitted as code around the statements inside; a look at the
trace of the statement gives the state they stand at.
-/

namespace ByteJump

namespace Emit

open Assembly Memory Linked

/-! ## Expressions of statements and of expressions -/

/-- Emitted from a state, an action emits the code of an expression at another one. -/
inductive Asks : Action → State → Expr → State → Prop
  | evaluate {value : Expr} {s : State} : Asks (.evaluate value) s value s
  | goto {target : Expr} {s : State} : Asks (.goto target) s target s
  | define {v : Variable} {value : Expr} {s : State} : Asks (.define v value) s value s
  | pointer {pointer value : Expr} {i : Info} {s : State} :
      Asks (.assign (.unary .deref pointer i) value) s pointer s
  /-- a value to be stored, with the pointer kept in a register -/
  | stored {pointer value : Expr} {i : Info} {s t u w : State} {saved : Nat}
      (hpointer : expr pointer s = .ok ⟨⟩ t) (hsaved : allocate 1 i.site t = .ok saved u)
      (hcopied : copyRange immediate (register saved) addressSize u = .ok ⟨⟩ w) :
      Asks (.assign (.unary .deref pointer i) value) s value w
  | condition {act : Action} {front behind : List Item} {condition : Expr}
      {taken otherwise : Target} {s t : State}
      (hparts : parts s.serial act = some (front ++ .glue (.branch condition taken otherwise) :: behind))
      (hfront : emitAll front s = .ok ⟨⟩ t) : Asks act s condition t

/-- Emitted at a state, an expression emits the code of a part of it at another one. -/
inductive Part : Expr → State → Expr → State → Prop
  | whole {e : Expr} {s : State} : Part e s e s
  | cast {operand part : Expr} {i : Info} {s t : State} (h : Part operand s part t) :
      Part (.cast operand i) s part t
  | unary {op : UnaryOp} {operand part : Expr} {i : Info} {s t : State}
      (h : Part operand s part t) : Part (.unary op operand i) s part t
  | left {op : BinaryOp} {left right part : Expr} {i : Info} {s t : State}
      (h : Part left s part t) : Part (.binary op left right i) s part t
  /-- the other operand, with the first one kept in a register -/
  | right {op : BinaryOp} {left right part : Expr} {i : Info} {s t u v w : State} {saved : Nat}
      (hleft : expr left s = .ok ⟨⟩ t) (hsaved : allocate 1 i.site t = .ok saved u)
      (hcopied : copy immediate (register saved) u = .ok ⟨⟩ v) (h : Part right v part w) :
      Part (.binary op left right i) s part w

/-! ## Code that stays -/

/-- The code of an expression is emitted at `u`, between `s` and `t`. -/
structure Stays (scope : List Variable) (e : Expr) (s u t : State) : Prop where
  good : Good u
  run : ∃ v, expr e u = .ok ⟨⟩ v ∧ Grows v t
  mark : s.mark ≤ u.mark
  vars : ∀ v ∈ scope, u.bindings.register? v = s.bindings.register? v

section Stays

variable {scope : List Variable} {e x : Expr} {s t u w : State}

/-- What is emitted behind leaves the code where it is. -/
theorem Stays.after (h : Stays scope e s u t) (hgrows : Grows t w) : Stays scope e s u w := by
  obtain ⟨v, hrun, hgrows'⟩ := h.run
  exact ⟨h.good, ⟨v, hrun, hgrows'.trans hgrows⟩, h.mark, h.vars⟩

/-- The operand at the front of code that stays. -/
theorem Stays.front {operand : Expr} {f : PUnit → Emitter PUnit}
    {Q : State → PUnit → State → Prop} (L : Linked) (hexpr : expr e = expr operand >>= f)
    (hf : ∀ v, Exec (f ⟨⟩) v (Q v))
    (h : Stays scope e s u t) : Stays scope operand s u t := by
  obtain ⟨v, hrun, hgrows⟩ := h.run
  rw [hexpr] at hrun
  obtain ⟨_, u', hoperand, hrest⟩ := ok_bind hrun
  obtain ⟨hgood, -, -⟩ := (expr_grows L operand).run h.good _ u' hoperand
  obtain ⟨-, hgrows', -⟩ := (hf u').run hgood _ v hrest
  exact ⟨h.good, ⟨u', hoperand, hgrows'.trans hgrows⟩, h.mark, h.vars⟩

/-- The operands of a sum, the second one behind a register that keeps the first one. -/
theorem Stays.operands {op : BinaryOp} {left right : Expr} {i : Info} (L : Linked)
    (h : Stays scope (.binary op left right i) s u t) : Stays scope left s u t ∧
      ∀ v w x saved, expr left u = .ok ⟨⟩ v → allocate 1 i.site v = .ok saved w →
        copy immediate (register saved) w = .ok ⟨⟩ x → Stays scope right s x t := by
  obtain ⟨y, hrun, hgrows⟩ := h.run
  rw [expr] at hrun
  obtain ⟨width, u', hwidth, hbody⟩ := ok_bind hrun
  obtain ⟨-, -, rfl, -⟩ := (widthOf_exec i.type i.site).run h.good _ u' hwidth
  by_cases hop : op = .add
  case neg =>
    rw [if_pos hop] at hbody
    cases hbody
  by_cases hone : width = 1
  case neg =>
    rw [if_neg (not_not_intro hop), if_pos hone] at hbody
    cases hbody
  rw [if_neg (not_not_intro hop), if_neg (not_not_intro hone)] at hbody
  obtain ⟨_, v, hleft, hbehind⟩ := ok_bind (x := expr left) hbody
  obtain ⟨saved, w, hsaved, hbehind⟩ := ok_bind hbehind
  obtain ⟨_, x, hcopied, hbehind⟩ := ok_bind hbehind
  obtain ⟨_, z, hright, hsum⟩ := ok_bind hbehind
  obtain ⟨hgood₁, hgrows₁, hadds₁, -⟩ := (expr_grows L left).run h.good _ v hleft
  obtain ⟨hgood₂, hgrows₂, hstill, hsame, hmark, hcount⟩ :=
    (allocate_exec 1 i.site).run hgood₁ _ w hsaved
  have hregister := register_lt (show saved < registerCount by omega)
  obtain ⟨hgood₃, hgrows₃, hkept₃, hmark₃, -⟩ := (copy_exec L hregister).run hgood₂ _ x hcopied
  obtain ⟨hgood₄, hgrows₄, -⟩ := (expr_grows L right).run hgood₃ _ z hright
  obtain ⟨-, hgrows₅, -⟩ := (sum_grows L hregister h.good.mark).run hgood₄ _ y hsum
  have hlast := hgrows₅.trans hgrows
  refine ⟨⟨h.good, ⟨v, hleft, hgrows₂.trans (hgrows₃.trans (hgrows₄.trans hlast))⟩, h.mark,
    h.vars⟩, fun v' w' x' saved' hleft' hsaved' hcopied' => ?_⟩
  rw [hleft] at hleft'
  cases hleft'
  rw [hsaved] at hsaved'
  cases hsaved'
  rw [hcopied] at hcopied'
  cases hcopied'
  have hkept := (hadds₁.kept.trans hstill.kept).trans hkept₃
  refine ⟨hgood₃, ⟨z, hright, hlast⟩, ?_, fun v hv => ?_⟩
  · have hmark₁ := hadds₁.mark
    have hlow := h.mark
    omega
  · rw [hkept.bindings]
    exact h.vars v hv

/-- The code of the parts stays as well. -/
theorem Stays.part (L : Linked) (hpart : Part e u x w) :
    Stays scope e s u t → Stays scope x s w t := by
  induction hpart with
  | whole => exact id
  | @cast operand part i u w _ ih =>
      exact fun h => ih (h.front L (by rw [expr]) fun v => narrow_grows L i)
  | @unary op operand part i u w _ ih =>
      intro h
      cases op with
      | plus => exact ih ⟨h.good, by simpa only [expr] using h.run, h.mark, h.vars⟩
      | not => exact ih (h.front L (by rw [expr]) fun v => negate_grows L operand i.site)
      | deref => exact ih (h.front L (by rw [expr]) fun v => follow_grows L)
      | negate | complement =>
          obtain ⟨v, hrun, -⟩ := h.run
          rw [expr] at hrun
          cases hrun
  | left _ ih => exact fun h => ih (h.operands L).1
  | right hleft hsaved hcopied _ ih =>
      exact fun h => ih ((h.operands L).2 _ _ _ _ hleft hsaved hcopied)

/-- The pointer and the value of a store, the value behind a register that keeps the pointer. -/
theorem store_stays (L : Linked) {pointer value : Expr} {i : Info} (hgood : Good s)
    (hrun : store (.unary .deref pointer i) value s = .ok ⟨⟩ t) : Stays scope pointer s s t ∧
      ∀ v w x saved, expr pointer s = .ok ⟨⟩ v → allocate 1 i.site v = .ok saved w →
        copyRange immediate (register saved) addressSize w = .ok ⟨⟩ x → Stays scope value s x t := by
  unfold store at hrun
  dsimp only at hrun
  obtain ⟨_, v, hpointer, hbehind⟩ := ok_bind (x := expr pointer) hrun
  obtain ⟨saved, w, hsaved, hbehind⟩ := ok_bind hbehind
  obtain ⟨_, x, hcopied, hbehind⟩ := ok_bind hbehind
  obtain ⟨_, y, hvalue, hbehind⟩ := ok_bind hbehind
  obtain ⟨_, z, hstore, hrelease⟩ := ok_bind hbehind
  obtain ⟨hgood₁, hgrows₁, hadds₁, -⟩ := (expr_grows L pointer).run hgood _ v hpointer
  obtain ⟨hgood₂, hgrows₂, hstill, hsame, hmark, hcount⟩ :=
    (allocate_exec 1 i.site).run hgood₁ _ w hsaved
  have hfree : saved < registerCount := by omega
  obtain ⟨hgood₃, hgrows₃, hkept₃, hmark₃, -⟩ := (save_exec L hfree (by decide)).run hgood₂ _ x hcopied
  obtain ⟨hgood₄, hgrows₄, -⟩ := (expr_grows L value).run hgood₃ _ y hvalue
  obtain ⟨hgood₅, hgrows₅, -⟩ := (storeThrough_exec L hfree).run hgood₄ _ z hstore
  obtain ⟨-, hgrows₆, -⟩ := (release_exec hgood.mark).run hgood₅ _ t hrelease
  have hlast := hgrows₅.trans hgrows₆
  refine ⟨⟨hgood, ⟨v, hpointer, hgrows₂.trans (hgrows₃.trans (hgrows₄.trans hlast))⟩,
    Nat.le_refl _, fun _ _ => rfl⟩, fun v' w' x' saved' hpointer' hsaved' hcopied' => ?_⟩
  rw [hpointer] at hpointer'
  cases hpointer'
  rw [hsaved] at hsaved'
  cases hsaved'
  rw [hcopied] at hcopied'
  cases hcopied'
  have hkept := (hadds₁.kept.trans hstill.kept).trans hkept₃
  refine ⟨hgood₃, ⟨y, hvalue, hlast⟩, ?_, fun v _ => by rw [hkept.bindings]⟩
  have hmark₁ := hadds₁.mark
  omega

/-- A statement with parts is not simple. -/
theorem isSimple_of_parts {serial : Nat} {act : Action} {items : List Item}
    (h : parts serial act = some items) : isSimple act = false := by
  cases act <;> first | rfl | cases h

/-- What an action with no statement inside asks for stays. -/
theorem Asks.stays (L : Linked) {act : Action} (hasks : Asks act s e u) (hgood : Good s)
    (hsimple : isSimple act = true) (hrun : action act s = .ok ⟨⟩ t) : Stays scope e s u t := by
  cases hasks with
  | evaluate =>
      rw [action] at hrun
      exact ⟨hgood, ⟨t, hrun, .refl t⟩, Nat.le_refl _, fun _ _ => rfl⟩
  | goto =>
      rw [action] at hrun
      obtain ⟨_, v, htarget, hrest⟩ := ok_bind hrun
      obtain ⟨hgood', -, -⟩ := (expr_grows L e).run hgood _ v htarget
      obtain ⟨-, hgrows, -⟩ := jump_grows.run hgood' _ t hrest
      exact ⟨hgood, ⟨v, htarget, hgrows⟩, Nat.le_refl _, fun _ _ => rfl⟩
  | @define v =>
      rw [action] at hrun
      obtain ⟨_, u₁, hvalue, hrest⟩ := ok_bind hrun
      obtain ⟨hgood₁, -, -⟩ := (expr_grows L e).run hgood _ u₁ hvalue
      obtain ⟨-, hgrows, -⟩ := (keep_grows L v).run hgood₁ _ t hrest
      exact ⟨hgood, ⟨u₁, hvalue, hgrows⟩, Nat.le_refl _, fun _ _ => rfl⟩
  | pointer =>
      rw [action] at hrun
      exact (store_stays L hgood hrun).1
  | stored hpointer hsaved hcopied =>
      rw [action] at hrun
      exact (store_stays L hgood hrun).2 _ _ _ _ hpointer hsaved hcopied
  | condition hparts _ =>
      rw [isSimple_of_parts hparts] at hsimple
      cases hsimple

end Stays

/-! ## Expressions along a trace

An expression that a statement asks for is emitted where the statement stands in the trace.  From
there on the code only grows. -/

section Trace

variable {G : Program → Prop} {unit : FileUnit} {n depth : Nat} {scope around : List Variable}
  {items : List Item} {s t u : State} {log : List Event} {e : Event} {st : Stmt} {x : Expr}

/-- A condition between the parts of a statement is that of the statement. -/
theorem condition_of_parts {serial : Nat} {act : Action} {front behind : List Item}
    {taken otherwise : Target}
    (h : parts serial act = some (front ++ .glue (.branch x taken otherwise) :: behind)) :
    (∃ inner other, act = .branch x inner other) ∨ ∃ body bodyFirst, act = .loop x body bodyFirst := by
  have hmem : ∀ all, parts serial act = some all → Item.glue (.branch x taken otherwise) ∈ all := by
    intro all hall
    obtain rfl := Option.some.inj (h.symm.trans hall)
    simp
  cases act with
  | branch condition inner other =>
      refine Or.inl ⟨inner, other, ?_⟩
      cases other <;>
      · have hcondition := hmem _ rfl
        simp only [List.mem_cons, Item.glue.injEq, Glue.branch.injEq, reduceCtorEq, false_or,
          List.not_mem_nil, or_false] at hcondition
        rw [hcondition.1]
  | loop condition body bodyFirst =>
      refine Or.inr ⟨body, bodyFirst, ?_⟩
      cases bodyFirst <;>
      · have hcondition := hmem _ rfl
        simp only [List.mem_cons, Item.glue.injEq, Glue.branch.injEq, reduceCtorEq, false_or,
          List.not_mem_nil, or_false] at hcondition
        rw [hcondition.1]
  | nothing | place _ | evaluate _ | goto _ | define _ _ | reserve _ | assign _ _ | block _
  | words _ => cases h

/-- The code that a branch is made of stays behind its condition. -/
theorem Forks.value (L : Linked) {front behind : List Item} {taken otherwise : Target} {v : State}
    (h : Forks front behind x taken otherwise u v t) : ∃ w, expr x u = .ok ⟨⟩ w ∧ Grows w t := by
  obtain ⟨_, w, hvalue, hturn⟩ := ok_bind (x := expr x) (f := fun _ => turn x taken otherwise) h.run
  obtain ⟨hgood, -, -⟩ := (expr_grows L x).run h.good _ w hvalue
  obtain ⟨-, hgrows, -⟩ := (turn_grows L x taken otherwise).run hgood _ v hturn
  exact ⟨w, hvalue, hgrows.trans h.grows⟩

/-- Behind the parts in front of a condition the variables in scope have the registers they had. -/
theorem front_stays (L : Linked) (hG : Library G) {front behind : List Item} {taken otherwise : Target}
    {log : List Event}
    (htrace : Trace depth scope (front ++ .glue (.branch x taken otherwise) :: behind) s log t)
    (hstands : Stands G unit n scope front) (htaken : Taken s.mark s) (hgood : Good s)
    (hawaits : Awaits s ((front ++ .glue (.branch x taken otherwise) :: behind) ++ []))
    (hfront : emitAll front s = .ok ⟨⟩ u) : Stays scope x s u t := by
  obtain ⟨first, u', v, hfirst, hforks⟩ := htrace.forks L _ hgood hawaits
  obtain rfl : u' = u := by
    have hrun := hfirst.run
    rw [hfront] at hrun
    cases hrun
    rfl
  have hwhole := (hfirst.passes htaken).whole
  refine ⟨hforks.good, hforks.value L, hwhole.taken.mark, fun v hv => ?_⟩
  show u'.bindings.registers.lookup v.id = s.bindings.registers.lookup v.id
  rw [hwhole.registers]
  refine lookup_append_of_ne fun y hy => hstands.unbound hG hfirst v hv y ?_
  rwa [← List.mem_reverse]

/-- Where a statement starts its code is emitted, and stays. -/
theorem Trace.emits (h : Trace depth scope items s log t) (hextends : Extends log s t) (he : e ∈ log)
    (hmoment : e.moment = .starts around st) : ∃ part v,
      Trace e.depth around [.stmt st] e.state part v ∧ part ⊆ log ∧ Good e.state ∧ Grows v t := by
  obtain ⟨part, v, hpart, hsub⟩ := h.inner e he around st hmoment
  obtain ⟨inner, hends⟩ := hpart.bounds
  have hlast : (⟨.ends st, e.depth, v⟩ : Event) ∈ log := hsub (by simp [hends])
  exact ⟨part, v, hpart, hsub, (hextends.event e he).1, (hextends.event _ hlast).2⟩

/-- A statement with no other inside is emitted at once. -/
theorem Trace.completes (h : Trace depth scope [.stmt st] s log t)
    (hsimple : isSimple st.action = true) : action st.action (s.labelAll st.labels) = .ok ⟨⟩ t := by
  cases h with
  | simple _ hrun hrest =>
      cases hrest
      exact hrun
  | compound hparts _ _ => cases (isSimple_of_parts hparts).symm.trans hsimple
  | block _ _ | skip _ _ | file _ _ _ _ => cases hsimple

/-- The parts of a condition or a loop are emitted behind its labels. -/
theorem Trace.inside {inner : List Item} (h : Trace depth scope [.stmt st] s log t) (hgood : Good s)
    (hparts : parts s.serial st.action = some inner) :
    ∃ part, Trace depth scope inner (s.labelAll st.labels) part t ∧ part ⊆ log ∧
      Awaits (s.labelAll st.labels) (inner ++ []) := by
  cases h with
  | simple hsimple _ _ => cases (isSimple_of_parts hparts).symm.trans hsimple
  | @compound _ _ labels act site _ _ _ _ _ log log' hparts' hinner hrest =>
      cases hrest
      cases hparts.symm.trans hparts'
      have hawaits : Awaits s [.stmt (.mk labels act site)] := ⟨⟨nofun, trivial⟩, nofun⟩
      exact ⟨log, hinner, by simp, (hawaits.inside hgood hparts).labelAll labels⟩
  | block _ _ | skip _ _ | file _ _ _ _ => cases hparts

/-- What a statement asks for where it starts stays. -/
theorem Trace.stays (L : Linked) (hG : Library G) (h : Trace depth scope items s log t)
    (hstands : Stands G unit n scope items) (hextends : Extends log s t) (he : e ∈ log)
    (htaken : Taken e.state.mark e.state) (hmoment : e.moment = .starts around st)
    (hasks : Asks st.action (e.state.labelAll st.labels) x u) :
    Stays around x (e.state.labelAll st.labels) u t := by
  obtain ⟨part, v, hpart, -, hgood, hgrows⟩ := h.emits hextends he hmoment
  have hlabels := hgood.labelAll st.labels
  refine Stays.after ?_ hgrows
  obtain ⟨labels, act, site⟩ := st
  cases hsimple : isSimple act with
  | true => exact hasks.stays L hlabels hsimple (hpart.completes hsimple)
  | false =>
      cases hasks with
      | condition hparts hfront =>
          rw [State.serial_labelAll] at hparts
          obtain ⟨inner, hinner, -, hawaits⟩ := hpart.inside hgood hparts
          obtain ⟨unit', n', hstart⟩ := h.standing hG hstands e he around _ hmoment
          exact front_stays L hG hinner (hstart.inside (parts_subs hparts)).front
            (htaken.labelAll labels).all hlabels hawaits hfront
      | evaluate | goto | define | pointer | stored _ _ _ => cases hsimple

end Trace

end Emit

end ByteJump
