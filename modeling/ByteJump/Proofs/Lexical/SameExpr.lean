import ByteJump.Proofs.Lexical.Blocks
import ByteJump.Proofs.Lexical.Elaborate

set_option autoImplicit false

/-!
# Expressions in scopes and in an environment

Where names mean the same in the open scope and in an environment, expressions and types resolved in
the scopes are those elaborated in the environment, with each use of a label in the open scope, and
they fail with the same fault.

The two sides compute in different ways: the resolver looks names up in frames, under a state, and
the elaboration in an environment of bindings, with no state at all.  `Models` says that the names
mean the same on both sides; `Reads x r R` says that `x` leaves the state alone and ends as `r`
does, with results related by `R`, or with the same fault.  For expressions `R` is `Placed`, which
adds the scope to the uses of labels, as the elaboration does not know about scopes.  Each
function gets its lemma, by the rules for `Reads` and in the recursion of the two functions.
-/

namespace ByteJump

namespace Resolve

variable {α β γ δ : Type}

/-- What names mean in the open scope is what an environment says. -/
structure Models (s : Scopes) (env : Elaborate.Env) : Prop where
  types : ∀ name, s.findType name = env.types name
  vars : ∀ name, s.findVariable name = env.vars name

/-! ## Looking at scopes -/

/-- The computation only looks at the state: it gives a value that goes with the given one, or fails
with the given fault, whatever the imports are. -/
def Reads (x : Resolving α) (r : Except Fault β) (R : α → β → Prop) (s : State) : Prop :=
  match r with
  | .ok b => ∃ a, R a b ∧ ∀ I, x s I = .ok (a, s) I
  | .error e => ∀ I, x s I = .error e I

section Reads

variable {s : State} {R : α → β → Prop}

theorem Reads.pure {a : α} {b : β} (h : R a b) : Reads (Pure.pure a) (.ok b) R s :=
  ⟨a, h, fun _ => rfl⟩

theorem Reads.fail {e : Fault} : Reads (fail e : Resolving α) (.error e : Except Fault β) R s :=
  fun _ => rfl

/-- Related results are handed to related continuations. -/
theorem Reads.bind {x : Resolving γ} {r : Except Fault δ} {Q : γ → δ → Prop} {f : γ → Resolving α}
    {g : δ → Except Fault β} (h : Reads x r Q s) (hf : ∀ a b, Q a b → Reads (f a) (g b) R s) :
    Reads (x >>= f) (r >>= g) R s := by
  cases r with
  | ok b =>
      obtain ⟨a, hab, hx⟩ := h
      have hrun : ∀ I, (x >>= f) s I = f a s I := by
        intro I
        show EStateM.bind (x s) (fun b => f b.1 b.2) I = _
        simp [EStateM.bind, hx]
      have hbehind := hf a b hab
      unfold Reads at hbehind ⊢
      simp only [hrun]
      exact hbehind
  | error e =>
      intro I
      show EStateM.bind (x s) (fun b => f b.1 b.2) I = _
      simp only [EStateM.bind, h I]

/-- What is read is the state at hand. -/
theorem Reads.get {f : State → Resolving α} {r : Except Fault β} (h : Reads (f s) r R s) :
    Reads (MonadState.get >>= f) r R s := h

/-- A computation without state is the same on both sides. -/
theorem Reads.ofExcept {r : Except Fault α} : Reads (ofExcept r) r Eq s := by
  cases r with
  | ok a => exact Reads.pure rfl
  | error e => exact Reads.fail

/-- A fault may be replaced by another one. -/
theorem Reads.recast {x : Resolving α} {r : Except Fault β} (h : Reads x r R s)
    (φ : Fault → Fault) :
    Reads (tryCatch x fun e => Resolve.fail (φ e)) (r.mapError φ) R s := by
  cases r with
  | ok b =>
      obtain ⟨a, hab, hx⟩ := h
      refine ⟨a, hab, fun I => ?_⟩
      show EStateM.tryCatch (x s) (fun e => Resolve.fail (φ e) s) I = _
      simp [EStateM.tryCatch, hx]
  | error e =>
      intro I
      show EStateM.tryCatch (x s) (fun e => Resolve.fail (φ e) s) I = _
      simp only [EStateM.tryCatch, h I]
      rfl

end Reads

/-! ## Constants

The scope of a label use has no part in the value of a constant, as labels have no values while a
file is resolved. -/

/-- The scope that a label is used in has no part in the value of a constant. -/
theorem evaluate_moved (scope : Nat) : ∀ e : Expr,
    Constant.evaluate Constant.unplaced (e.mapUses (.moved scope)) =
      Constant.evaluate Constant.unplaced e
  | .int .. | .str .. | .variable .. | .label .. | .index .. => rfl
  | .cast operand _ | .unary _ operand _ => by
      rw [Expr.mapUses, Constant.evaluate, Constant.evaluate, evaluate_moved scope operand]
  | .binary _ left right _ => by
      rw [Expr.mapUses, Constant.evaluate, Constant.evaluate, evaluate_moved scope left,
        evaluate_moved scope right]

/-! ## Expressions and types -/

/-- An elaborated expression, and the same expression with its uses of labels in a scope. -/
structure Placed (scope : Nat) (e elaborated : Expr) : Prop where
  eq : e = elaborated.mapUses (.moved scope)
  loose : elaborated.mapUses .loose = elaborated

/-- Elaborated expressions, and the same expressions with their uses of labels in a scope. -/
structure ListPlaced (scope : Nat) (es elaborated : List Expr) : Prop where
  eq : es = Expr.listMapUses (.moved scope) elaborated
  loose : Expr.listMapUses .loose elaborated = elaborated

variable {c : Context} {env : Elaborate.Env} {s : State}

/-- The type is the same on both sides, and so is the site of a fault. -/
theorem expectInteger_reads {scope : Nat} {e e' : Expr} (h : Placed scope e e') :
    Reads (expectInteger e) (Elaborate.integer e') (fun _ e'' => Placed scope e e'') s := by
  unfold expectInteger Elaborate.integer
  rw [h.eq, Expr.type_mapUses, Expr.site_mapUses, ← h.eq]
  split
  · exact Reads.pure h
  · exact Reads.fail

mutual

/-- One case for each kind of expression.  A variable is looked up in the scopes and in the
environment, and found alike. -/
theorem expr_reads (h : Models s.scopes env) : ∀ e,
    Reads (expr c e) (Elaborate.expr c env e) (Placed s.scopes.current) s
  | .int value span | .str text span => by
      rw [expr, Elaborate.expr]
      exact Reads.pure ⟨rfl, rfl⟩
  | .variable name span => by
      rw [expr, Elaborate.expr]
      refine Reads.get ?_
      rw [h.vars name]
      cases env.vars name with
      | some v => exact Reads.pure ⟨rfl, rfl⟩
      | none => exact Reads.fail
  | .label name span => by
      rw [expr, Elaborate.expr]
      exact Reads.get (Reads.pure ⟨rfl, rfl⟩)
  | .cast operand target span => by
      rw [expr, Elaborate.expr]
      refine (expr_reads h operand).bind fun e e' he => ?_
      refine (typeExpr_reads h target).bind fun type _ htype => Reads.pure ⟨?_, ?_⟩
      · rw [he.eq, htype, Expr.mapUses]
      · rw [Expr.mapUses, he.loose]
  | .unary op operand span => by
      rw [expr, Elaborate.expr]
      refine (expr_reads h operand).bind fun e e' he => ?_
      refine (expectInteger_reads he).bind fun _ e'' he' => Reads.pure ⟨?_, ?_⟩
      · rw [he'.eq, Expr.mapUses, Expr.type_mapUses]
        cases op <;> rfl
      · rw [Expr.mapUses, he'.loose]
  | .binary op left right span => by
      rw [expr, Elaborate.expr]
      refine (expr_reads h left).bind fun a a' ha => ?_
      refine (expr_reads h right).bind fun b b' hb => ?_
      rw [show a.type = a'.type by rw [ha.eq, Expr.type_mapUses],
        show b.type = b'.type by rw [hb.eq, Expr.type_mapUses]]
      split
      · refine Reads.pure ⟨?_, ?_⟩
        · rw [ha.eq, hb.eq, Expr.mapUses]
        · rw [Expr.mapUses, ha.loose, hb.loose]
      · exact Reads.fail
  | .access base accessors span => by
      rw [expr, Elaborate.expr]
      refine (expr_reads h base).bind fun e e' he => ?_
      dsimp only
      rw [show e.type = e'.type by rw [he.eq, Expr.type_mapUses]]
      refine (access_reads h _ accessors e'.type).bind fun p p' hp => Reads.pure ⟨?_, ?_⟩
      · rw [he.eq, hp.1, hp.2.eq, Expr.mapUses]
      · rw [Expr.mapUses, he.loose, hp.2.loose]

/-- By induction on the accessors; each of them takes the type reached so far to the next one. -/
theorem access_reads (h : Models s.scopes env) (site : Location) : ∀ accessors type,
    Reads (access c site type accessors) (Elaborate.access c env site type accessors)
      (fun p p' => p.1 = p'.1 ∧ ListPlaced s.scopes.current p.2 p'.2) s
  | [], type => by
      rw [access, Elaborate.access]
      exact Reads.pure ⟨rfl, rfl, rfl⟩
  | .call arguments :: rest, type => by
      rw [access, Elaborate.access]
      exact (exprs_reads h arguments).bind fun _ _ _ => Reads.fail
  | .index index :: rest, type => by
      rw [access, Elaborate.access]
      refine (expr_reads h index).bind fun e e' he => ?_
      refine (expectInteger_reads he).bind fun _ e'' he' => ?_
      cases type with
      | object o => exact Reads.fail
      | array inner count =>
          refine (access_reads h site rest inner).bind fun p p' hp => Reads.pure ⟨hp.1, ?_, ?_⟩
          · rw [he'.eq, hp.2.eq, Expr.listMapUses]
          · rw [Expr.listMapUses, he'.loose, hp.2.loose]

theorem exprs_reads (h : Models s.scopes env) : ∀ es,
    Reads (exprs c es) (Elaborate.exprs c env es) (fun _ _ => True) s
  | [] => by
      rw [exprs, Elaborate.exprs]
      exact Reads.pure trivial
  | e :: es => by
      rw [exprs, Elaborate.exprs]
      refine (expr_reads h e).bind fun _ _ _ => ?_
      rw [← bind_pure (exprs c es)]
      exact (exprs_reads h es).bind fun _ _ _ => Reads.pure trivial

theorem typeExpr_reads (h : Models s.scopes env) : ∀ t,
    Reads (typeExpr c t) (Elaborate.typeExpr c env t) Eq s
  | .named name span => by
      rw [typeExpr, Elaborate.typeExpr]
      refine Reads.get ?_
      rw [h.types name]
      cases env.types name with
      | some type => exact Reads.pure rfl
      | none => exact Reads.fail
  | .array inner size span => by
      rw [typeExpr, Elaborate.typeExpr]
      refine (typeExpr_reads h inner).bind fun type _ htype => ?_
      refine (expr_reads h size).bind fun e e' he => ?_
      rw [he.eq, evaluate_moved]
      refine Reads.ofExcept.bind fun n _ hn => Reads.pure ?_
      rw [htype, hn]

end

theorem exprList_reads (h : Models s.scopes env) : ∀ es,
    Reads (exprList c es) (Elaborate.exprs c env es) (ListPlaced s.scopes.current) s
  | [] => by
      rw [exprList, Elaborate.exprs]
      exact Reads.pure ⟨rfl, rfl⟩
  | e :: es => by
      rw [exprList, Elaborate.exprs]
      refine (expr_reads h e).bind fun x x' hx => ?_
      refine (exprList_reads h es).bind fun xs xs' hxs => Reads.pure ⟨?_, ?_⟩
      · rw [hx.eq, hxs.eq, Expr.listMapUses]
      · rw [Expr.listMapUses, hx.loose, hxs.loose]

theorem constant_reads (h : Models s.scopes env) (e : Syntax.Expr) :
    Reads (constant c e) (Elaborate.constant c env e) Eq s := by
  unfold constant Elaborate.constant
  refine (expr_reads h e).bind fun x x' hx => ?_
  rw [hx.eq, evaluate_moved]
  exact Reads.ofExcept

/-- A size is a constant that has to fit. -/
theorem count_reads (h : Models s.scopes env) (size : Syntax.Expr) :
    Reads (count c size) (Elaborate.count c env size) Eq s := by
  unfold count Elaborate.count
  refine (constant_reads h size).bind fun n _ hn => Reads.pure ?_
  rw [hn]

theorem condition_reads (h : Models s.scopes env) (e : Syntax.Expr) :
    Reads (condition c e) (Elaborate.condition c env e) (Placed s.scopes.current) s := by
  unfold condition Elaborate.condition
  refine (expr_reads h e).bind fun x x' hx => ?_
  rw [← bind_pure (Elaborate.integer x')]
  exact (expectInteger_reads hx).bind fun _ _ hx' => Reads.pure hx'

/-- By induction on the fields, with the repeated ones refused on both sides. -/
theorem structFields_reads (h : Models s.scopes env) (struct : String) : ∀ fields done,
    Reads (structFields c struct done fields) (Elaborate.fields c env struct done fields) Eq s
  | [], done => by
      rw [structFields, Elaborate.fields]
      exact Reads.pure rfl
  | field :: fields, done => by
      rw [structFields, Elaborate.fields]
      split
      · exact Reads.fail
      · refine (typeExpr_reads h field.type).bind fun type _ htype => ?_
        rw [← htype]
        exact structFields_reads h struct fields _

theorem alignment_reads (h : Models s.scopes env) (value : Option Syntax.Expr) (site : Location) :
    Reads (alignment c value site) (Elaborate.alignment c env value site) Eq s := by
  cases value with
  | none => exact Reads.fail
  | some value =>
      have hconstant := (constant_reads (c := c) h value).recast (alignmentFault site)
      refine Reads.bind (Q := Eq) ?_ fun n _ hn => ?_
      · convert hconstant using 3
        rename_i fault
        cases fault <;> rfl
      · rw [← hn]
        split
        · exact Reads.pure rfl
        · exact Reads.fail

end Resolve

end ByteJump
