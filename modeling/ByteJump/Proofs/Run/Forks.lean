import ByteJump.Proofs.Run.Extends

set_option autoImplicit false

/-!
# Where branches lead

A condition or a loop tests an expression and goes to a point: the one in front of the statement
inside, or another one, in front of the alternative or at the end.  Each point is placed once, so in
the code that is linked it is where the statement behind it starts.

A branch is emitted with two points as its targets, and where these are is only known later.
Along a trace one can tell: a point is placed once, either in front of a statement or at the end
of the compound one.  `Trace.point_begins` and `Trace.point_ends` find the place, `Aims` says that
a target has a given address at the end, and `Chooses` puts both targets of a condition or a loop
together with the statements they lead to.
-/

namespace ByteJump

/-- What a condition or a loop tests, the statement inside it, and the alternative. -/
def Action.choice? : Action → Option (Expr × Stmt × Option Stmt)
  | .branch condition taken otherwise => some (condition, taken, otherwise)
  | .loop condition body _ => some (condition, body, none)
  | .nothing | .place _ | .evaluate _ | .goto _ | .define .. | .reserve _ | .assign .. | .block _
  | .words _ => none

namespace Emit

open Assembly Memory Linked

variable {depth : Nat} {scope : List Variable} {front behind later : List Item} {s t u v : State}
  {log : List Event} {role : String} {serial : Nat} {st inner : Stmt} {x : Expr}
  {taken otherwise : Target} {other : Option Stmt}

/-! ## Points -/

/-- A point that items place is placed once, and stays. -/
theorem Trace.placed (L : Linked)
    (h : Trace depth scope (front ++ .glue (.place role serial) :: behind) s log t) (hgood : Good s)
    (hawaits : Awaits s ((front ++ .glue (.place role serial) :: behind) ++ later)) :
    ∃ first rest u scope', log = first ++ rest ∧
      Trace depth scope' (.glue (.place role serial) :: behind) u rest t ∧
      t.points.lookup serial = some u.position ∧ s.position ≤ u.position ∧
      u.position ≤ t.position := by
  obtain ⟨first, rest, u, rfl, hfirst, hrest⟩ := h.split
  rw [List.append_assoc] at hawaits
  obtain ⟨hextends, hplace⟩ := hfirst.extends L hgood hawaits
  refine ⟨first, rest, u, _, rfl, hrest, ?_, hextends.grows.position_le,
    (hrest.extends L hextends.good hplace).1.grows.position_le⟩
  cases hrest with
  | glue hrun hbehind =>
      obtain ⟨hpointed, hafter⟩ := Glue.extends L hrun hextends.good hplace
      cases hrun
      exact (hbehind.extends L hpointed.good hafter).1.grows.points serial _
        (lookup_pointed_self serial)

/-- The statement starts at the address, along some events. -/
def Begins (log : List Event) (st : Stmt) (a : Nat) : Prop :=
  ∃ e ∈ log, (∃ around, e.moment = .starts around st) ∧ e.state.position = a

/-- A statement that begins among some events begins among more. -/
theorem Begins.mono {log' : List Event} {a : Nat} (h : Begins log st a) (hsub : log ⊆ log') :
    Begins log' st a := by
  obtain ⟨e, he, hstarts⟩ := h
  exact ⟨e, hsub he, hstarts⟩

/-- A point in front of a statement is where the statement starts. -/
theorem Trace.point_begins (L : Linked) (front : List Item)
    (h : Trace depth scope (front ++ .glue (.place role serial) :: .stmt st :: behind) s log t)
    (hgood : Good s)
    (hawaits : Awaits s ((front ++ .glue (.place role serial) :: .stmt st :: behind) ++ later)) :
    ∃ a, t.points.lookup serial = some a ∧ Begins log st a := by
  obtain ⟨first, rest, u, scope', rfl, hplace, hpoint, -, -⟩ := h.placed L hgood hawaits
  cases hplace with
  | @glue _ _ _ _ _ w _ log hrun hbehind =>
      cases hrun
      obtain ⟨one, later, v, rfl, hone, -⟩ := Trace.split
        (show Trace _ _ ([.stmt st] ++ behind) _ _ _ from hbehind)
      obtain ⟨inner, rfl⟩ := hone.bounds
      exact ⟨u.position, hpoint, ⟨.starts scope' st, depth, u.pointed serial⟩, by simp [State.pointed],
        ⟨scope', rfl⟩, rfl⟩

/-- A point behind everything is at the end. -/
theorem Trace.point_ends (L : Linked) (front : List Item)
    (h : Trace depth scope (front ++ [.glue (.place role serial)]) s log t) (hgood : Good s)
    (hawaits : Awaits s ((front ++ [.glue (.place role serial)]) ++ later)) :
    t.points.lookup serial = some t.position := by
  obtain ⟨first, rest, u, scope', rfl, hplace, hpoint, -, -⟩ := h.placed L hgood hawaits
  cases hplace with
  | glue hrun hbehind =>
      cases hrun
      cases hbehind
      exact hpoint

/-! ## Branches -/

/-- A branch between items is emitted from `u` to `v`, and the points of the items are not in its own
code. -/
structure Forks (front behind : List Item) (x : Expr) (taken otherwise : Target) (u v t : State) :
    Prop where
  good : Good u
  run : branch x taken otherwise u = .ok ⟨⟩ v
  grows : Grows v t
  away : ∀ role serial, Item.glue (.place role serial) ∈ front ∨ Item.glue (.place role serial) ∈ behind →
    ∃ a, t.points.lookup serial = some a ∧ (a ≤ u.position ∨ v.position ≤ a) ∧ a ≤ t.position

/-- The states around the branch are those of its code in the trace. -/
theorem Trace.forks (L : Linked) (front : List Item)
    (h : Trace depth scope (front ++ .glue (.branch x taken otherwise) :: behind) s log t)
    (hgood : Good s)
    (hawaits : Awaits s ((front ++ .glue (.branch x taken otherwise) :: behind) ++ later)) :
    ∃ first u v, Trace depth scope front s first u ∧ Forks front behind x taken otherwise u v t := by
  obtain ⟨first, rest, u, rfl, hfirst, hrest⟩ := h.split
  rw [List.append_assoc] at hawaits
  obtain ⟨hextends, hcondition⟩ := hfirst.extends L hgood hawaits
  have hgrows := (hrest.extends L hextends.good hcondition).1.grows
  cases hrest with
  | @glue _ _ _ _ _ v _ _ hbranch hbehind =>
      obtain ⟨hbranched, hafter⟩ := Glue.extends L hbranch hextends.good hcondition
      refine ⟨first, u, v, hfirst, hextends.good, hbranch,
        (hbehind.extends L hbranched.good hafter).1.grows, fun role serial hplace => ?_⟩
      rcases hplace with hplace | hplace <;>
        obtain ⟨before, after, rfl⟩ := List.append_of_mem hplace
      · obtain ⟨-, -, w, -, -, -, hpoint, -, hhigh⟩ := hfirst.placed L hgood hawaits
        exact ⟨_, hgrows.points serial _ hpoint, Or.inl hhigh, Nat.le_trans hhigh hgrows.position_le⟩
      · obtain ⟨-, -, w, -, -, -, hpoint, hlow, hhigh⟩ := hbehind.placed L hbranched.good hafter
        exact ⟨_, hpoint, Or.inr hlow, hhigh⟩

/-- The target is a point at the address, which is not in the code between two states. -/
structure Aims (target : Target) (u v t : State) (a : Nat) : Prop where
  point : ∃ role serial, target = .point role serial ∧ t.points.lookup serial = some a
  away : a ≤ u.position ∨ v.position ≤ a
  le : a ≤ t.position

/-- A target stays where it is when code grows. -/
theorem Aims.mono {a : Nat} {w : State} (h : Aims taken u v t a) (hgrows : Grows t w) :
    Aims taken u v w a := by
  obtain ⟨role, serial, htarget, hpoint⟩ := h.point
  exact ⟨⟨role, serial, htarget, hgrows.points serial a hpoint⟩, h.away,
    Nat.le_trans h.le hgrows.position_le⟩

theorem Forks.aims {a : Nat} (h : Forks front behind x taken otherwise u v t)
    (hplace : Item.glue (.place role serial) ∈ front ∨ Item.glue (.place role serial) ∈ behind)
    (hpoint : t.points.lookup serial = some a) : Aims (.point role serial) u v t a := by
  obtain ⟨a', hpoint', haway, hle⟩ := h.away role serial hplace
  obtain rfl := Option.some.inj (hpoint.symm.trans hpoint')
  exact ⟨⟨role, serial, rfl, hpoint⟩, haway, hle⟩

/-- The branch of a condition or a loop from `u` to `v`, along the events of its parts: one target is
where the statement inside starts, the other one where the alternative does, or the end. -/
structure Chooses (log : List Event) (x : Expr) (inner : Stmt) (other : Option Stmt)
    (taken otherwise : Target) (u v t : State) (a b : Nat) : Prop where
  good : Good u
  run : branch x taken otherwise u = .ok ⟨⟩ v
  grows : Grows v t
  taken : Aims taken u v t a
  otherwise : Aims otherwise u v t b
  begins : Begins log inner a
  alternative : match other with
    | some st => Begins log st b
    | none => b = t.position

/-- By the parts of the action, one case for each form of condition or loop. -/
theorem Trace.chooses (L : Linked) {act : Action} {items : List Item}
    (hparts : parts s.serial act = some items) (hchoice : act.choice? = some (x, inner, other))
    (h : Trace depth scope items s log t) (hgood : Good s) (hawaits : Awaits s (items ++ later)) :
    ∃ front behind taken otherwise u v a b,
      items = front ++ .glue (.branch x taken otherwise) :: behind ∧ emitAll front s = .ok ⟨⟩ u ∧
        Chooses log x inner other taken otherwise u v t a b := by
  cases act with
  | branch condition taken otherwise =>
      cases hchoice
      cases other with
      | none =>
          cases hparts
          obtain ⟨first, u, v, hfirst, hforks⟩ := h.forks L [_, _] hgood hawaits
          obtain ⟨a, hpoint, hbegins⟩ := h.point_begins L [_, _, _] hgood hawaits
          have hend := h.point_ends L [_, _, _, _, _] hgood hawaits
          exact ⟨_, _, _, _, u, v, a, t.position, rfl, hfirst.run, hforks.good, hforks.run, hforks.grows,
            hforks.aims (by simp) hpoint, hforks.aims (by simp) hend, hbegins, rfl⟩
      | some other =>
          cases hparts
          obtain ⟨first, u, v, hfirst, hforks⟩ := h.forks L [_, _, _] hgood hawaits
          obtain ⟨a, hpoint, hbegins⟩ := h.point_begins L [_, _, _, _] hgood hawaits
          obtain ⟨b, hpoint', hbegins'⟩ :=
            h.point_begins L [_, _, _, _, _, _, _] hgood hawaits
          exact ⟨_, _, _, _, u, v, a, b, rfl, hfirst.run, hforks.good, hforks.run, hforks.grows,
            hforks.aims (by simp) hpoint, hforks.aims (by simp) hpoint', hbegins, hbegins'⟩
  | loop condition body bodyFirst =>
      cases hchoice
      cases bodyFirst with
      | false =>
          cases hparts
          obtain ⟨first, u, v, hfirst, hforks⟩ := h.forks L [_, _, _, _] hgood hawaits
          obtain ⟨a, hpoint, hbegins⟩ :=
            h.point_begins L [_, _, _, _, _] hgood hawaits
          have hend := h.point_ends L [_, _, _, _, _, _, _, _] hgood hawaits
          exact ⟨_, _, _, _, u, v, a, t.position, rfl, hfirst.run, hforks.good, hforks.run, hforks.grows,
            hforks.aims (by simp) hpoint, hforks.aims (by simp) hend, hbegins, rfl⟩
      | true =>
          cases hparts
          obtain ⟨first, u, v, hfirst, hforks⟩ := h.forks L [_, _, _, _] hgood hawaits
          obtain ⟨a, hpoint, hbegins⟩ := h.point_begins L [_, _] hgood hawaits
          have hend := h.point_ends L [_, _, _, _, _] hgood hawaits
          exact ⟨_, _, _, _, u, v, a, t.position, rfl, hfirst.run, hforks.good, hforks.run, hforks.grows,
            hforks.aims (by simp) hpoint, hforks.aims (by simp) hend, hbegins, rfl⟩
  | nothing | place _ | evaluate _ | goto _ | define _ _ | reserve _ | assign _ _ | block _
  | words _ => cases hchoice

/-- In linked code the target has this address as its value. -/
theorem Aims.value {L : Linked} {a : Nat} (h : Aims taken u v t a) (hleads : Leads L t) :
    L.value (.address taken none) = a := by
  obtain ⟨role, serial, rfl, hpoint⟩ := h.point
  exact value_point hleads hpoint none

/-- Behind the tested expression, the low bytes of the immediate register say which way the branch
goes, as many as the type of the expression has. -/
theorem Chooses.goes {L : Linked} {a b : Nat}
    (h : Chooses log x inner other taken otherwise u v t a b) (hleads : Leads L t) (hgood : Good t)
    (hinteger : x.type.isInteger = true) : ∃ w width, expr x u = .ok ⟨⟩ w ∧ Good w ∧
      x.type.width = some width ∧ width ≤ registerSize ∧
      ∀ d, Goes L w v d (if d.number immediate width = 0 then b else a)
        (Leaves [register w.mark, register w.mark + 1]
          (if d.number immediate width = 0 then Constant.truth else 0) d) := by
  obtain ⟨_, w, hvalue, hturn⟩ := ok_bind (x := expr x) (f := fun _ => turn x taken otherwise) h.run
  obtain ⟨hgood', hgrows, -⟩ := (expr_grows L x).run h.good _ w hvalue
  obtain ⟨-, -, -, -, -, width, hwidth, hhigh, hgoes⟩ :=
    (turn_exec L taken otherwise hinteger).run hgood' _ v hturn
  have hbefore := hgrows.position_le
  refine ⟨w, width, hvalue, hgood', hwidth, hhigh, fun d => ?_⟩
  by_cases hzero : d.number immediate width = 0
  · rw [if_pos hzero, if_pos hzero]
    exact hgoes d true (decide_eq_true hzero) b (h.otherwise.value hleads)
      (hleads.lt_addressSpace hgood h.otherwise.le) (h.otherwise.away.imp_left (by omega))
  · rw [if_neg hzero, if_neg hzero]
    exact hgoes d false (decide_eq_false hzero) a (h.taken.value hleads)
      (hleads.lt_addressSpace hgood h.taken.le) (h.taken.away.imp_left (by omega))

end Emit

end ByteJump
