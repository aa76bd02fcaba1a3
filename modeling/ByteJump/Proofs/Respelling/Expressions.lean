import ByteJump.Proofs.Resolve.SameFile
import ByteJump.Proofs.Respelling.Tree

set_option autoImplicit false

/-!
# Resolving respelled expressions

A respelled expression is resolved in the respelled state.  Every look-up finds the respelled
declaration, or none as before, so what comes of the expression is the respelled result or a fault
of the same kind.

`Echoes r f x y` is about two resolutions: whatever the state, `y` in the respelled state ends
with `f` of what `x` ends with, in the respelled state behind, or both fail with the same kind of
fault.  The kept imports are not touched by expressions and are the same on both sides.  Names
enter at look-ups only, and a faithful respelling is injective on each kind of name, so a look-up
of the respelled name finds the respelled declaration.  The rules below are those of the
resolver's monad, and the functions follow in the order of its modules.
-/

namespace ByteJump.Resolve

variable {r : Respelling} {c d : Context} {α β γ δ : Type}

/-! ## Respelled computations -/

/-- From the respelled state the second computation does what the first one does, respelled; the
kinds of faults are the same. -/
def Echoes (r : Respelling) (f : α → β) (x : Resolving α) (y : Resolving β) : Prop :=
  ∀ s I, match x s I with
    | .ok (a, t) J => y (s.respell r) I = .ok (f a, t.respell r) J
    | .error e J => ∃ e', y (s.respell r) I = .error e' J ∧ e'.kind = e.kind

/-- Two contexts of one file that differ only in what files hold. -/
structure Context.Alike (c d : Context) : Prop where
  unit : c.unit = d.unit
  file : c.file = d.file
  builtins : c.builtins = d.builtins
  searchPaths : c.searchPaths = d.searchPaths
  active : c.active = d.active
  contains : c.source.contains = d.source.contains
  identity : c.source.identity = d.source.identity

theorem Echoes.pure {f : α → β} (a : α) : Echoes r f (Pure.pure a) (Pure.pure (f a)) :=
  fun _ _ => rfl

theorem Echoes.fail {f : α → β} {e e' : Fault} (h : e'.kind = e.kind) :
    Echoes r f (fail e) (fail e') := fun _ _ => ⟨e', rfl, h⟩

/-- The respelled result of the first part goes into the second one. -/
theorem Echoes.bind {g : γ → δ} {f : α → β} {x : Resolving γ} {y : Resolving δ}
    {k : γ → Resolving α} {l : δ → Resolving β} (h : Echoes r g x y)
    (hk : ∀ a, Echoes r f (k a) (l (g a))) : Echoes r f (x >>= k) (y >>= l) := by
  intro s I
  have h := h s I
  show match EStateM.bind (x s) (fun p => k p.1 p.2) I with
    | .ok (a, t) J => EStateM.bind (y (s.respell r)) (fun p => l p.1 p.2) I = .ok (f a, t.respell r) J
    | .error e J => ∃ e', EStateM.bind (y (s.respell r)) (fun p => l p.1 p.2) I = .error e' J ∧
        e'.kind = e.kind
  unfold EStateM.bind
  cases hx : x s I with
  | ok p J =>
      rw [hx] at h
      rw [show y (s.respell r) I = .ok (g p.1, p.2.respell r) J from h]
      exact hk p.1 p.2 J
  | error e J =>
      rw [hx] at h
      obtain ⟨e', hy, hkind⟩ := h
      rw [hy]
      exact ⟨e', rfl, hkind⟩

/-- Behind a computation whose value has no names in it. -/
theorem Echoes.after {f : α → β} {x y : Resolving γ} {k : γ → Resolving α} {l : γ → Resolving β}
    (h : Echoes r id x y) (hk : ∀ a, Echoes r f (k a) (l a)) : Echoes r f (x >>= k) (y >>= l) :=
  h.bind hk

/-- Behind a reading of the state. -/
theorem Echoes.get {f : α → β} {k : State → Resolving α} {l : State → Resolving β}
    (h : ∀ s, Echoes r f (k s) (l (s.respell r))) :
    Echoes r f (MonadState.get >>= k) (MonadState.get >>= l) :=
  fun s I => h s s I

/-- An update that commutes with respelling. -/
theorem Echoes.update {f g : State → State} (h : ∀ s, g (s.respell r) = (f s).respell r) :
    Echoes r id (modify f : Resolving PUnit) (modify g) := by
  intro s I
  show EStateM.Result.ok (PUnit.unit, g (s.respell r)) I = .ok (PUnit.unit, (f s).respell r) I
  rw [h]

/-- An update of the scopes that commutes with respelling. -/
theorem Echoes.scopes {f g : Scopes → Scopes} (h : ∀ s, g (s.respell r) = (f s).respell r) :
    Echoes r id (updateScopes f) (updateScopes g) := by
  refine .update fun s => ?_
  simp only [State.respell, h]

theorem Echoes.ofExcept {f : α → β} {x : Except Fault α} {y : Except Fault β}
    (h : Mirrors f x y) : Echoes r f (ofExcept x) (ofExcept y) := by
  cases x with
  | ok a =>
      rw [show y = .ok (f a) from h]
      exact .pure a
  | error e =>
      obtain ⟨e', rfl, hkind⟩ := h
      exact .fail hkind

/-- Faults may be replaced by others as long as their kinds depend on kinds only. -/
theorem Echoes.recast {f : α → β} {x : Resolving α} {y : Resolving β} {φ ψ : Fault → Fault}
    (h : Echoes r f x y) (hfault : ∀ e e', e'.kind = e.kind → (ψ e').kind = (φ e).kind) :
    Echoes r f (tryCatch x fun e => Resolve.fail (φ e)) (tryCatch y fun e => Resolve.fail (ψ e)) := by
  intro s I
  have h := h s I
  show match EStateM.tryCatch (x s) (fun e => Resolve.fail (φ e) s) I with
    | .ok (a, t) J => EStateM.tryCatch (y (s.respell r))
        (fun e => Resolve.fail (ψ e) (s.respell r)) I = .ok (f a, t.respell r) J
    | .error e J => ∃ e', EStateM.tryCatch (y (s.respell r))
        (fun e => Resolve.fail (ψ e) (s.respell r)) I = .error e' J ∧ e'.kind = e.kind
  unfold EStateM.tryCatch
  cases hx : x s I with
  | ok p J =>
      rw [hx] at h
      rw [show y (s.respell r) I = .ok (f p.1, p.2.respell r) J from h]
  | error e J =>
      rw [hx] at h
      obtain ⟨e', hy, hkind⟩ := h
      rw [hy]
      exact ⟨ψ e', rfl, hfault e e' hkind⟩

/-! ## Parts of expressions

The type of an expression is respelled as a whole, and questions about it, such as whether it is
an integer, have the same answer. -/

/-- A place in a file is a span of it; spans may be respelled in any way. -/
theorem locate_respell (hcd : c.Alike d) (span : Span) :
    d.locate (r.span span) = (c.locate span).respell r := by
  rw [Context.locate, Context.locate, hcd.file]
  rfl

theorem unaryType_respell (hcd : c.Alike d) (op : UnaryOp) (t : Ty) :
    unaryType d op (t.respell r) = (unaryType c op t).respell r := by
  cases op with
  | deref =>
      rw [unaryType, unaryType, hcd.builtins]
      rfl
  | negate | plus | complement | not => rfl

/-- The fault names the respelled type, and is of the same kind. -/
theorem expectInteger_echoes (e : Expr) :
    Echoes r id (expectInteger e) (expectInteger (e.respell r)) := by
  unfold expectInteger
  rw [Expr.type_respell, Ty.isInteger_respell]
  split
  · exact .pure _
  · exact .fail rfl

/-- A constant is the same number. -/
theorem evaluate_echoes (e : Expr) :
    Echoes r id (ofExcept (Constant.evaluate Constant.unplaced e))
      (ofExcept (Constant.evaluate Constant.unplaced (e.respell r))) := by
  refine .ofExcept (evaluate_mirrors ?_ (fun _ _ => Mirrors.error (f := id) rfl) e)
  intro use site
  simp only [Constant.unplaced, Constant.ofTarget, LabelUse.respell]
  cases use.target with
  | some label => exact .error rfl
  | none => exact .error rfl

/-! ## Expressions and types -/

mutual

/-- One case for each kind of expression.  Variables and labels are looked up by their respelled
names. -/
theorem expr_echoes (hr : r.Faithful) (hcd : c.Alike d) :
    ∀ e, Echoes r (Expr.respell r) (expr c e) (expr d (e.respell r))
  | .int value span => by
      rw [Syntax.Expr.respell, expr, expr, locate_respell hcd, ← hcd.builtins]
      exact .pure _
  | .str text span => by
      rw [Syntax.Expr.respell, expr, expr, locate_respell hcd, ← hcd.builtins]
      exact .pure _
  | .variable name span => by
      rw [Syntax.Expr.respell, expr, expr]
      refine .get fun s => ?_
      have hfind := Scopes.findVariable_respell hr s.scopes name
      rw [show (s.respell r).scopes = s.scopes.respell r from rfl, hfind, locate_respell hcd]
      cases s.scopes.findVariable name with
      | none => exact .fail rfl
      | some v => exact .pure (Expr.variable v ⟨v.type, c.locate span⟩)
  | .label name span => by
      rw [Syntax.Expr.respell, expr, expr]
      refine .get fun s => ?_
      rw [locate_respell hcd, ← hcd.builtins]
      exact .pure (Expr.label ⟨name, s.scopes.current, none⟩ ⟨c.builtins.address, c.locate span⟩)
  | .cast operand target span => by
      rw [Syntax.Expr.respell, expr, expr]
      refine (expr_echoes hr hcd operand).bind fun e => ?_
      refine (typeExpr_echoes hr hcd target).bind fun t => ?_
      rw [locate_respell hcd]
      exact .pure (Expr.cast e ⟨t, c.locate span⟩)
  | .unary op operand span => by
      rw [Syntax.Expr.respell, expr, expr]
      refine (expr_echoes hr hcd operand).bind fun e => ?_
      refine (expectInteger_echoes e).after fun _ => ?_
      rw [locate_respell hcd, Expr.type_respell, unaryType_respell hcd]
      exact .pure (Expr.unary op e ⟨unaryType c op e.type, c.locate span⟩)
  | .binary op left right span => by
      rw [Syntax.Expr.respell, expr, expr]
      refine (expr_echoes hr hcd left).bind fun e => ?_
      refine (expr_echoes hr hcd right).bind fun f => ?_
      rw [locate_respell hcd, Expr.type_respell, Expr.type_respell, Ty.same_respell hr]
      split
      · exact .pure (Expr.binary op e f ⟨e.type, c.locate span⟩)
      · exact .fail rfl
  | .access base accessors span => by
      rw [Syntax.Expr.respell, expr, expr]
      refine (expr_echoes hr hcd base).bind fun e => ?_
      rw [locate_respell hcd, Expr.type_respell]
      refine (access_echoes hr hcd (c.locate span) accessors e.type).bind fun p => ?_
      exact .pure (Expr.index e p.2 ⟨p.1, c.locate span⟩)

/-- By induction on the accessors. -/
theorem access_echoes (hr : r.Faithful) (hcd : c.Alike d) (site : Location) :
    ∀ accessors t, Echoes r (fun p => (p.1.respell r, Expr.respellList r p.2))
      (access c site t accessors)
      (access d (site.respell r) (t.respell r) (Syntax.Accessor.respellList r accessors))
  | [], t => by
      rw [Syntax.Accessor.respellList, access, access]
      exact .pure (t, [])
  | .call arguments :: _, t => by
      rw [Syntax.Accessor.respellList, access, access]
      exact (exprs_echoes hr hcd arguments).after fun _ => .fail rfl
  | .index index :: rest, t => by
      rw [Syntax.Accessor.respellList, access, access]
      refine (expr_echoes hr hcd index).bind fun e => ?_
      refine (expectInteger_echoes e).after fun _ => ?_
      cases t with
      | object o => exact .fail rfl
      | array inner count =>
          refine (access_echoes hr hcd site rest inner).bind fun p => ?_
          exact .pure (p.1, e :: p.2)

theorem exprs_echoes (hr : r.Faithful) (hcd : c.Alike d) :
    ∀ es, Echoes r id (exprs c es) (exprs d (Syntax.Expr.respellList r es))
  | [] => by
      rw [Syntax.Expr.respellList, exprs, exprs]
      exact .pure _
  | e :: es => by
      rw [Syntax.Expr.respellList, exprs, exprs]
      exact (expr_echoes hr hcd e).bind fun _ => exprs_echoes hr hcd es

/-- A named type is looked up, and an array has a size that is computed. -/
theorem typeExpr_echoes (hr : r.Faithful) (hcd : c.Alike d) :
    ∀ t, Echoes r (Ty.respell r) (typeExpr c t) (typeExpr d (t.respell r))
  | .named name span => by
      rw [Syntax.TypeExpr.respell, typeExpr, typeExpr]
      refine .get fun s => ?_
      have hfind := Scopes.findType_respell hr s.scopes name
      rw [show (s.respell r).scopes = s.scopes.respell r from rfl, hfind]
      cases s.scopes.findType name with
      | none => exact .fail rfl
      | some t => exact .pure t
  | .array inner size _ => by
      rw [Syntax.TypeExpr.respell, typeExpr, typeExpr]
      refine (typeExpr_echoes hr hcd inner).bind fun t => ?_
      refine (expr_echoes hr hcd size).bind fun e => ?_
      refine (evaluate_echoes e).after fun value => ?_
      exact .pure (Ty.array t (min value.toNat maxWord))

end

/-! ## Constants, counts and conditions -/

/-- The value is a number, which is not respelled. -/
theorem constant_echoes (hr : r.Faithful) (hcd : c.Alike d) (e : Syntax.Expr) :
    Echoes r id (constant c e) (constant d (e.respell r)) :=
  (expr_echoes hr hcd e).bind fun e => evaluate_echoes e

/-- A size that does not fit is refused on both sides. -/
theorem count_echoes (hr : r.Faithful) (hcd : c.Alike d) (e : Syntax.Expr) :
    Echoes r id (count c e) (count d (e.respell r)) :=
  (constant_echoes hr hcd e).after fun _ => .pure _

theorem condition_echoes (hr : r.Faithful) (hcd : c.Alike d) (e : Syntax.Expr) :
    Echoes r (Expr.respell r) (condition c e) (condition d (e.respell r)) :=
  (expr_echoes hr hcd e).bind fun e => (expectInteger_echoes e).after fun _ => .pure e

theorem exprList_echoes (hr : r.Faithful) (hcd : c.Alike d) :
    ∀ es, Echoes r (Expr.respellList r) (exprList c es) (exprList d (Syntax.Expr.respellList r es))
  | [] => by
      rw [Syntax.Expr.respellList, exprList, exprList]
      exact .pure []
  | e :: es => by
      rw [Syntax.Expr.respellList, exprList, exprList]
      refine (expr_echoes hr hcd e).bind fun e => ?_
      refine (exprList_echoes hr hcd es).bind fun es => ?_
      exact .pure (e :: es)

end ByteJump.Resolve
