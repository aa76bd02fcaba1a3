import ByteJump.Proofs.Lexical.SameExpr
import ByteJump.Proofs.Lexical.Typed
import ByteJump.Proofs.Resolve.Made

set_option autoImplicit false

/-!
# Expressions of statements

The expressions of a statement, other than those of the statements inside it, obey the typing rules,
their variables are visible where the statement was made, and a new variable has the type of its
value.

`Expr.Ruled` puts the two halves together: the expression is typed by the rules, and its variables
satisfy a predicate.  `Action.Ruled` says it of all expressions that belong to an action itself.
Both survive the binding of labels, since binding changes neither types nor variables.  The
resolver is looked at one command at a time, and `MadeIn.ruled` carries the result to each
statement of a resolved file.
-/

namespace ByteJump

section MapUses

variable {b : Builtins} {f : LabelUse → LabelUse}

mutual

/-- What labels mean has no part in the rules. -/
theorem Expr.typed_mapUses : ∀ e : Expr, e.Typed b → (e.mapUses f).Typed b
  | .int .., h | .str .., h | .variable .., h | .label .., h => h
  | .cast operand _, h => Expr.typed_mapUses operand h
  | .unary _ operand _, h => by
      refine ⟨Expr.typed_mapUses operand h.1, ?_, ?_⟩ <;> rw [Expr.type_mapUses]
      · exact h.2.1
      · exact h.2.2
  | .binary _ left right _, h => by
      refine ⟨Expr.typed_mapUses left h.1, Expr.typed_mapUses right h.2.1, ?_, ?_⟩
      · rw [Expr.type_mapUses, Expr.type_mapUses]
        exact h.2.2.1
      · rw [Expr.type_mapUses]
        exact h.2.2.2
  | .index base indices _, h => by
      refine ⟨Expr.typed_mapUses base h.1, ?_⟩
      rw [Expr.type_mapUses]
      exact Expr.reaches_mapUses indices _ h.2

/-- Indexing goes through the same types, whatever its labels are bound to. -/
theorem Expr.reaches_mapUses : ∀ (es : List Expr) (type : Ty) {reached : Ty},
    Expr.Reaches b es type reached → Expr.Reaches b (Expr.listMapUses f es) type reached
  | [], _, _, h => h
  | e :: es, .array element _, _, h => by
      refine ⟨Expr.typed_mapUses e h.1, ?_, Expr.reaches_mapUses es element h.2.2⟩
      rw [Expr.type_mapUses]
      exact h.2.1
  | _ :: _, .object _, _, h => h.elim

end

end MapUses

/-! ## Rules -/

/-- The expression obeys the typing rules, and its variables are among some. -/
structure Expr.Ruled (b : Builtins) (vars : Variable → Prop) (e : Expr) : Prop where
  typed : e.Typed b
  proper : e.Proper vars

/-- The expressions of an action, other than those of the statements inside it, obey the rules: a
variable has the type of its value, but that of the largest numbers if the value is a literal alone;
conditions are numbers. -/
def Action.Ruled (b : Builtins) (vars : Variable → Prop) : Action → Prop
  | .evaluate value | .goto value => value.Ruled b vars
  | .define v value => value.Ruled b vars ∧ v.count = none ∧
      v.type = if value.type.isLiteral then b.word .n128 else value.type
  | .assign target value => target.Ruled b vars ∧ value.Ruled b vars
  | .branch condition .. | .loop condition .. =>
      condition.Ruled b vars ∧ condition.type.isInteger = true
  | .nothing | .place _ | .reserve _ | .block _ | .words _ => True

section Ruled

variable {b : Builtins} {vars vars' : Variable → Prop} {find : LabelFinder}

/-- A weaker predicate on variables. -/
theorem Action.Ruled.mono (h : ∀ v, vars v → vars' v) {a : Action} (ha : a.Ruled b vars) :
    a.Ruled b vars' := by
  have hexpr : ∀ {e : Expr}, e.Ruled b vars → e.Ruled b vars' := fun he => ⟨he.1, he.2.mono h⟩
  cases a with
  | evaluate value | goto value => exact hexpr ha
  | define v value | branch condition _ _ | loop condition _ _ => exact ⟨hexpr ha.1, ha.2⟩
  | assign target value => exact ⟨hexpr ha.1, hexpr ha.2⟩
  | nothing | place _ | reserve _ | block _ | words _ => trivial

/-- Binding replaces label uses, which have the type of an address before and after. -/
theorem Expr.Ruled.bind {e bound : Expr} (he : e.Ruled b vars) (h : Expr.bind find e = .ok bound) :
    bound.Ruled b vars ∧ bound.type = e.type := by
  have hfills := (Expr.bind_fills find e).of_ok h
  refine ⟨⟨?_, hfills.proper vars he.proper⟩, hfills.type⟩
  rw [Expr.bind_eq, LabelFinder.settle] at h
  split at h
  · cases h
  · cases h
    exact Expr.typed_mapUses e he.typed

/-- Binding the uses of labels keeps to the rules. -/
theorem Action.Ruled.bind {a bound : Action} (ha : a.Ruled b vars)
    (h : Action.bind find a = .ok bound) : bound.Ruled b vars := by
  cases a with
  | nothing | place _ | reserve _ =>
      cases h
      trivial
  | evaluate value | goto value =>
      rw [Action.bind] at h
      obtain ⟨e, he, h⟩ := Except.bind_eq_ok.mp h
      cases h
      exact (Expr.Ruled.bind ha he).1
  | define v value =>
      rw [Action.bind] at h
      obtain ⟨e, he, h⟩ := Except.bind_eq_ok.mp h
      cases h
      obtain ⟨hruled, htype⟩ := ha.1.bind he
      refine ⟨hruled, ha.2.1, ?_⟩
      rw [htype]
      exact ha.2.2
  | assign target value =>
      rw [Action.bind] at h
      obtain ⟨e, he, h⟩ := Except.bind_eq_ok.mp h
      obtain ⟨e', he', h⟩ := Except.bind_eq_ok.mp h
      cases h
      exact ⟨(ha.1.bind he).1, (ha.2.bind he').1⟩
  | branch condition taken otherwise =>
      rw [Action.bind] at h
      obtain ⟨e, he, h⟩ := Except.bind_eq_ok.mp h
      obtain ⟨s, -, h⟩ := Except.bind_eq_ok.mp h
      obtain ⟨o, -, h⟩ := Except.bind_eq_ok.mp h
      cases h
      obtain ⟨hruled, htype⟩ := ha.1.bind he
      refine ⟨hruled, ?_⟩
      rw [htype]
      exact ha.2
  | loop condition body bodyFirst =>
      rw [Action.bind] at h
      obtain ⟨e, he, h⟩ := Except.bind_eq_ok.mp h
      obtain ⟨s, -, h⟩ := Except.bind_eq_ok.mp h
      cases h
      obtain ⟨hruled, htype⟩ := ha.1.bind he
      refine ⟨hruled, ?_⟩
      rw [htype]
      exact ha.2
  | block body =>
      rw [Action.bind] at h
      obtain ⟨ss, -, h⟩ := Except.bind_eq_ok.mp h
      cases h
      trivial
  | words values =>
      rw [Action.bind] at h
      obtain ⟨es, -, h⟩ := Except.bind_eq_ok.mp h
      cases h
      trivial

end Ruled

/-! ## Visible variables

A look-up goes through the frames from the innermost one, and finds the innermost declaration of a
name.  A variable that can be found is visible. -/

namespace Scopes

/-- What a look-up finds is the first declaration of its name. -/
theorem Finds.visible {s : Scopes} {v : Variable} (h : s.Finds v) : v ∈ s.visible := by
  obtain ⟨name, h⟩ := h
  obtain ⟨scope, hscope, h⟩ := List.exists_of_findSome?_eq_some h
  refine List.mem_flatMap.mpr ⟨scope, hscope, ?_⟩
  unfold variablesOf
  cases hframe : s.frames[scope]? with
  | none =>
      rw [hframe] at h
      cases h
  | some frame =>
      rw [hframe] at h
      obtain ⟨before, behind, hvars, -⟩ := List.lookup_eq_some_iff.mp h
      exact List.mem_map.mpr ⟨(name, v), by simp [hvars], rfl⟩

/-- A label that is declared hides no variable. -/
theorem visible_label (s : Scopes) (label : Label) : (s.defineLabel label).visible = s.visible := by
  have hchain : ∀ i, (s.defineLabel label).chain i = s.chain i := by
    refine fun i => chain_modify ?_ i
    exact fun frame => rfl
  have hvars : ∀ i, (s.defineLabel label).variablesOf i = s.variablesOf i := by
    intro i
    unfold variablesOf defineLabel modify
    rw [Array.getElem?_modify]
    by_cases hi : s.current = i
    · rw [if_pos hi]
      cases s.frames[i]? <;> rfl
    · rw [if_neg hi]
  rw [visible, hchain]
  exact flatMap_variablesOf_congr fun i _ => hvars i

end Scopes

namespace Resolve

variable {c : Context} {s t : State} {I J : Imports}

/-- Labels are no variables, so declaring them changes nothing that is visible. -/
theorem declareLabels_visible : ∀ (decls : List Syntax.LabelDecl) {s : State} {I : Imports}
    {ls : List Label}, declareLabels c decls s I = .ok (ls, t) J →
      t.scopes.visible = s.scopes.visible
  | [], s, I, ls, h => by
      cases h
      rfl
  | decl :: decls, s, I, ls, h => by
      rw [declareLabels] at h
      obtain ⟨id, u, K, hid, h⟩ := ok_bind h
      cases hid
      obtain ⟨_, v, L, hupdate, h⟩ := ok_bind h
      cases hupdate
      by_cases hexported : decl.exported = true
      · rw [if_pos hexported] at h
        obtain ⟨_, w, M, hexport, h⟩ := ok_bind h
        cases hexport
        obtain ⟨rest, w', M', hrest, h⟩ := ok_bind h
        cases h
        exact (declareLabels_visible decls hrest).trans (Scopes.visible_label s.scopes _)
      · rw [if_neg hexported] at h
        obtain ⟨rest, w', M', hrest, h⟩ := ok_bind h
        cases h
        exact (declareLabels_visible decls hrest).trans (Scopes.visible_label s.scopes _)

/-! ## Statements

Each command resolves a few expressions and makes one action of them.  An expression that comes
from the resolver is typed and its variables are visible, so the action is ruled; what is left per
command is the type of a new variable. -/

/-- A look-up that ends well leaves what it promises. -/
theorem Looks.post_of_ok {α : Type} {x : Resolving α} {post : α → Prop} {a : α} (h : Looks x post s)
    (hrun : x s I = .ok (a, t) J) : post a := by
  rcases h with ⟨b, hb, hx⟩ | ⟨e, -, hx⟩
  · rw [hx] at hrun
    cases hrun
    exact hb
  · rw [hx] at hrun
    cases hrun

/-- A resolved expression obeys the rules. -/
theorem expr_ruled {e : Syntax.Expr} {x : Expr} (h : expr c e s I = .ok (x, t) J) :
    x.Ruled c.builtins s.scopes.Finds ∧ t = s := by
  obtain ⟨ht, -⟩ := (expr_looks c e s).of_ok h
  refine ⟨⟨?_, (expr_looks c e s).post_of_ok h⟩, ht⟩
  have hmodels : Models s.scopes ⟨s.scopes.findType, s.scopes.findVariable⟩ :=
    ⟨fun _ => rfl, fun _ => rfl⟩
  have hreads := @expr_reads c _ _ hmodels e
  cases helaborate : Elaborate.expr c ⟨s.scopes.findType, s.scopes.findVariable⟩ e with
  | error fault =>
      rw [helaborate] at hreads
      rw [hreads I] at h
      cases h
  | ok e' =>
      rw [helaborate] at hreads
      obtain ⟨x', hplaced, hrun⟩ := hreads
      rw [hrun I] at h
      cases h
      rw [hplaced.eq]
      exact Expr.typed_mapUses e' (Elaborate.expr_gives e e' helaborate)

/-- A condition is an expression that was checked to be an integer. -/
theorem condition_ruled {e : Syntax.Expr} {x : Expr} (h : condition c e s I = .ok (x, t) J) :
    x.Ruled c.builtins s.scopes.Finds ∧ x.type.isInteger = true := by
  obtain ⟨hinteger, -⟩ := (condition_looks c e s).post_of_ok h
  unfold condition at h
  obtain ⟨x', u, K, hexpr, h⟩ := ok_bind h
  obtain ⟨_, v, L, -, h⟩ := ok_bind h
  cases h
  exact ⟨(expr_ruled hexpr).1, hinteger⟩

/-- What a command does obeys the rules. -/
theorem action_ruled {depth : Nat} {site : Location} {command : Syntax.Command} {a : Action}
    (h : action c depth site command s I = .ok (some a, t) J) :
    a.Ruled c.builtins s.scopes.Finds := by
  cases command with
  | importFile file =>
      rw [action] at h
      obtain ⟨p, u, K, -, h⟩ := ok_bind h
      cases h
      trivial
  | evaluate value | goto value _ =>
      rw [action] at h
      obtain ⟨e, u, K, he, h⟩ := ok_bind h
      cases h
      exact (expr_ruled he).1
  | define name value =>
      rw [action] at h
      obtain ⟨e, u, K, he, h⟩ := ok_bind h
      obtain ⟨id, v, L, -, h⟩ := ok_bind h
      cases h
      exact ⟨(expr_ruled he).1, rfl, rfl⟩
  | defineArray name size element =>
      rw [action] at h
      obtain ⟨n, u, K, -, h⟩ := ok_bind h
      cases element <;>
      · obtain ⟨type, v, L, -, h⟩ := ok_bind h
        obtain ⟨id, w, M, -, h⟩ := ok_bind h
        cases h
        trivial
  | assign target value =>
      rw [action] at h
      obtain ⟨e, u, K, he, h⟩ := ok_bind h
      obtain ⟨e', v, L, he', h⟩ := ok_bind h
      cases h
      obtain ⟨htarget, rfl⟩ := expr_ruled he
      exact ⟨htarget, (expr_ruled he').1⟩
  | block body =>
      rw [action] at h
      obtain ⟨_, u, K, -, h⟩ := ok_bind h
      obtain ⟨ss, v, L, -, h⟩ := ok_bind h
      obtain ⟨_, w, M, -, h⟩ := ok_bind h
      cases h
      trivial
  | branch test taken otherwise =>
      rw [action] at h
      obtain ⟨e, u, K, he, h⟩ := ok_bind h
      obtain ⟨r, v, L, -, h⟩ := ok_bind h
      obtain ⟨o, w, M, -, h⟩ := ok_bind h
      cases h
      exact condition_ruled he
  | loop test body bodyFirst =>
      rw [action] at h
      obtain ⟨e, u, K, he, h⟩ := ok_bind h
      obtain ⟨r, v, L, -, h⟩ := ok_bind h
      cases h
      exact condition_ruled he
  | struct name fields | pragma name value =>
      rw [action] at h
      obtain ⟨_, u, K, -, h⟩ := ok_bind h
      cases h
  | words values =>
      rw [action] at h
      obtain ⟨es, u, K, -, h⟩ := ok_bind h
      cases h
      trivial

/-- The expressions of a statement obey the rules, over the variables visible where it was made. -/
theorem MadeIn.ruled {p : Program} {around : List Variable} {st : Stmt} (h : MadeIn p around st) :
    ∃ b, st.action.Ruled b (· ∈ around) := by
  obtain ⟨c, tree, I, J, ss, s, st₀, -, -, hmade, hbind⟩ := h
  obtain ⟨depth, stx, u, K, r, t, L, -, rfl, hrun, rfl⟩ := hmade
  refine ⟨c.builtins, ?_⟩
  obtain ⟨decls, command, span⟩ := stx
  rw [stmt] at hrun
  obtain ⟨ls, v, M, hlabels, hrun⟩ := ok_bind hrun
  obtain ⟨more, w, N, hmore, hrun⟩ := ok_bind hrun
  obtain ⟨a, x, N', haction, hrun⟩ := ok_bind hrun
  cases hrun
  have hvisible := (declareLabels_visible _ hmore).trans (declareLabels_visible _ hlabels)
  have hruled : (a.getD .nothing).Ruled c.builtins (· ∈ u.scopes.visible) := by
    cases a with
    | none => trivial
    | some a => exact (action_ruled haction).mono fun v hv => hvisible ▸ hv.visible
  rw [← action_orNothing (c := c) (.mk decls command span) (ls ++ more) a (c.locate span)] at hruled
  revert hbind hruled
  generalize orNothing c _ _ = made
  intro hbind hruled
  obtain ⟨labels, act, site⟩ := made
  rw [Stmt.bind] at hbind
  obtain ⟨a', ha', hbind⟩ := Except.bind_eq_ok.mp hbind
  cases hbind
  exact hruled.bind ha'

end Resolve

end ByteJump
