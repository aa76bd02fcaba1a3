import ByteJump.Proofs.Resolve.Agreement

set_option autoImplicit false

/-!
# The same expression resolved twice

Expressions and types resolved in two contexts of one file agree.  What is read on the way is the
same up to renaming: the declarations in scope, the widths and kinds of types and whether two types
are the same.

`b.Via rename x y` says that the two sides of the bond rename to the same thing, and it is what
all results are compared by.  The first half collects what can be read of such things without
telling the sides apart: whether a type is an integer, whether two types are the same, what a name
means in the scopes.  The second half goes through the functions on expressions and types, which
are recursive in one another, and shows that they agree.  A constant is computed where names play
no part, so it is not only the same up to renaming, but the same number.
-/

namespace ByteJump

/-! ## Constants

Renaming changes the places in an expression and in a fault, and neither the value nor the kind of
the fault depends on these. -/

namespace Constant

variable {r : Renaming}

theorem truncate_rename (value : Word128) (type : Ty) (site : Location) :
    truncate value (type.rename r) (site.rename r) =
      (truncate value type site).mapError (Fault.rename r) := by
  unfold truncate
  rw [Ty.width_rename]
  cases type.width with
  | none => simp [noSize, Except.mapError, Fault.rename]
  | some width =>
      dsimp only
      split <;> rfl

/-- Operators fail at the place they stand at. -/
theorem unary_rename (op : UnaryOp) (value : Word128) (site : Location) :
    unary op value (site.rename r) = (unary op value site).mapError (Fault.rename r) := by
  cases op <;> rfl

theorem binary_rename (op : BinaryOp) (v w : Word128) (site : Location) :
    binary op v w (site.rename r) = (binary op v w site).mapError (Fault.rename r) := by
  unfold binary
  cases op <;> first | rfl | (dsimp only; split <;> rfl)

/-- Faults are renamed in whichever part they arise. -/
theorem mapError_bind {ε ε' α β : Type} (g : ε → ε') (x : Except ε α) (f : α → Except ε β) :
    (x >>= f).mapError g = x.mapError g >>= fun a => (f a).mapError g := by
  cases x <;> rfl

/-- A constant keeps its value, and a fault its cause, under a renaming. -/
theorem evaluate_rename (e : Expr) :
    evaluate unplaced (e.rename r) = (evaluate unplaced e).mapError (Fault.rename r) := by
  fun_induction evaluate unplaced e with
  | case1 value i => rfl
  | case2 text i => rfl
  | case3 use i =>
      simp only [Expr.rename, evaluate, unplaced, ofTarget, LabelUse.rename]
      cases use.target <;> rfl
  | case4 v i => rfl
  | case5 base indices i => rfl
  | case6 operand i ih =>
      simp only [Expr.rename, evaluate, ih, mapError_bind, Info.rename, truncate_rename]
  | case7 op operand i ih =>
      simp only [Expr.rename, evaluate, ih, mapError_bind, Info.rename, unary_rename]
  | case8 op left right i ihl ihr =>
      simp only [Expr.rename, evaluate, ihl, ihr, mapError_bind, Info.rename, binary_rename]

end Constant

namespace Resolve

variable {b : Bond} {c d : Context}

/-! ## Things that are the same up to renaming -/

/-- Two things that are the same up to renaming. -/
abbrev Bond.Via {α : Type} (b : Bond) (rename : Renaming → α → α) (x y : α) : Prop :=
  rename b.left x = rename b.right y

/-- Two contexts of one file. -/
structure Bond.Contexts (b : Bond) (c d : Context) : Prop where
  unit : b.left.unit c.unit = b.right.unit d.unit
  file : b.left.path c.file = b.right.path d.file
  builtins : c.builtins = d.builtins

theorem Bond.Contexts.locate (h : b.Contexts c d) (span : Span) :
    b.Via Location.rename (c.locate span) (d.locate span) := by
  simp [Bond.Via, Location.rename, Context.locate, h.file]

theorem Bond.States.scopes {s t : State} (h : b.States s t) :
    b.Via Scopes.rename s.scopes t.scopes := congrArg State.scopes h

theorem Bond.Via.type {e f : Expr} (h : b.Via Expr.rename e f) :
    b.Via Ty.rename e.type f.type := by
  have htype := congrArg Expr.type h
  rwa [Expr.type_rename, Expr.type_rename] at htype

theorem Bond.Via.site {e f : Expr} (h : b.Via Expr.rename e f) :
    b.Via Location.rename e.site f.site := by
  have hsite := congrArg Expr.site h
  rwa [Expr.site_rename, Expr.site_rename] at hsite

theorem Bond.Via.isInteger {x y : Ty} (h : b.Via Ty.rename x y) : x.isInteger = y.isInteger := by
  rw [← Ty.isInteger_rename (r := b.left) x, h, Ty.isInteger_rename]

theorem Bond.Via.isLiteral {x y : Ty} (h : b.Via Ty.rename x y) : x.isLiteral = y.isLiteral := by
  rw [← Ty.isLiteral_rename (r := b.left) x, h, Ty.isLiteral_rename]

theorem Bond.Via.text {x y : Ty} (h : b.Via Ty.rename x y) : x.text = y.text := by
  rw [← Ty.text_rename (r := b.left) x, h, Ty.text_rename]

/-- Whether two types are the same depends on the declarations of structs they lead to, which are
renamed alike. -/
theorem Bond.Via.same {x x' y y' : Ty} (h : b.Via Ty.rename x y) (h' : b.Via Ty.rename x' y') :
    x.same x' = y.same y' := by
  rw [← Ty.same_rename b.left_injective x x', h, h', Ty.same_rename b.right_injective]

/-- A look-up by name does not see what is renamed. -/
theorem Bond.Via.findType {s t : Scopes} (h : b.Via Scopes.rename s t) (name : String) :
    (s.findType name).map (Ty.rename b.left) = (t.findType name).map (Ty.rename b.right) := by
  rw [← Scopes.findType_rename, ← Scopes.findType_rename, h]

/-- A look-up by name does not see what is renamed. -/
theorem Bond.Via.findVariable {s t : Scopes} (h : b.Via Scopes.rename s t) (name : String) :
    (s.findVariable name).map (Variable.rename b.left) =
      (t.findVariable name).map (Variable.rename b.right) := by
  rw [← Scopes.findVariable_rename, ← Scopes.findVariable_rename, h]

/-! ## Parts of expressions -/

/-- The fault names the text of the type, which is the same on both sides. -/
theorem expectInteger_agrees {e f : Expr} (h : b.Via Expr.rename e f) :
    Agrees b (fun _ _ => True) (expectInteger e) (expectInteger f) := by
  unfold expectInteger
  rw [h.type.isInteger, h.type.text]
  split
  · exact Agrees.pure trivial
  · refine Agrees.fail (Or.inr ?_)
    rw [Fault.rename, Fault.rename, h.site]

/-- A constant has the same value on both sides. -/
theorem evaluate_agrees {e f : Expr} (h : b.Via Expr.rename e f) :
    Agrees b (fun v w => v = w) (ofExcept (Constant.evaluate Constant.unplaced e))
      (ofExcept (Constant.evaluate Constant.unplaced f)) := by
  have hvalue : (Constant.evaluate Constant.unplaced e).mapError (Fault.rename b.left) =
      (Constant.evaluate Constant.unplaced f).mapError (Fault.rename b.right) := by
    rw [← Constant.evaluate_rename, ← Constant.evaluate_rename, h]
  refine Agrees.ofExcept ?_ (by rw [hvalue])
  intro v w hv hw
  rw [hv, hw] at hvalue
  exact Except.ok.inj hvalue

theorem unaryType_via (hctx : b.Contexts c d) (op : UnaryOp) {x y : Ty} (h : b.Via Ty.rename x y) :
    b.Via Ty.rename (unaryType c op x) (unaryType d op y) := by
  cases op <;> first | exact h | simp [unaryType, Bond.Via, hctx.builtins]

/-- A variable and a place make an expression. -/
theorem variable_via {v w : Variable} {x y : Location} (hv : b.Via Variable.rename v w)
    (hx : b.Via Location.rename x y) :
    b.Via Expr.rename (.variable v ⟨v.type, x⟩) (.variable w ⟨w.type, y⟩) := by
  have htype : v.type.rename b.left = w.type.rename b.right := congrArg Variable.type hv
  simp only [Bond.Via, Expr.rename, Info.rename]
  rw [hv, htype, hx]

/-! ## Expressions and types

The recursion is that of the resolver: an expression may hold a type, a type a size, and a size is
an expression again. -/

mutual

/-- An expression resolved in two contexts of one file. -/
theorem expr_agrees (hctx : b.Contexts c d) :
    ∀ e, Agrees b (b.Via Expr.rename) (expr c e) (expr d e)
  | .int value span => by
      rw [expr, expr]
      refine Agrees.pure ?_
      simp [Bond.Via, Expr.rename, Info.rename, Builtins.rename_literal, hctx.builtins,
        hctx.locate span]
  | .str text span => by
      rw [expr, expr]
      refine Agrees.pure ?_
      simp [Bond.Via, Expr.rename, Info.rename, Builtins.rename_string, hctx.builtins,
        hctx.locate span]
  | .variable name span => by
      rw [expr, expr]
      refine Agrees.get.bind fun s t hst => ?_
      have hfind := hst.scopes.findVariable name
      cases hs : s.scopes.findVariable name with
      | none =>
          cases ht : t.scopes.findVariable name with
          | none =>
              refine Agrees.fail (Or.inr ?_)
              simp [Fault.rename, hctx.locate span]
          | some w => simp [hs, ht] at hfind
      | some v =>
          cases ht : t.scopes.findVariable name with
          | none => simp [hs, ht] at hfind
          | some w =>
              rw [hs, ht, Option.map_some, Option.map_some, Option.some.injEq] at hfind
              exact Agrees.pure (variable_via hfind (hctx.locate span))
  | .label name span => by
      rw [expr, expr]
      refine Agrees.get.bind fun s t hst => Agrees.pure ?_
      have hcurrent : s.scopes.current = t.scopes.current :=
        congrArg (fun s => s.scopes.current) hst
      simp [Bond.Via, Expr.rename, Info.rename, LabelUse.rename, Builtins.rename_address,
        hctx.builtins, hcurrent, hctx.locate span]
  | .cast operand target span => by
      rw [expr, expr]
      refine (expr_agrees hctx operand).bind fun e f hef => ?_
      refine (typeExpr_agrees hctx target).bind fun x y hxy => Agrees.pure ?_
      simp [Bond.Via, Expr.rename, Info.rename, hef, hxy, hctx.locate span]
  | .unary op operand span => by
      rw [expr, expr]
      refine (expr_agrees hctx operand).bind fun e f hef => ?_
      refine (expectInteger_agrees hef).bind fun _ _ _ => Agrees.pure ?_
      simp [Bond.Via, Expr.rename, Info.rename, hef, unaryType_via hctx op hef.type, hctx.locate span]
  | .binary op left right span => by
      rw [expr, expr]
      refine (expr_agrees hctx left).bind fun e f hef => ?_
      refine (expr_agrees hctx right).bind fun e' f' hef' => ?_
      rw [hef.type.same hef'.type, hef.type.text, hef'.type.text]
      split
      · refine Agrees.pure ?_
        simp [Bond.Via, Expr.rename, Info.rename, hef, hef', hef.type, hctx.locate span]
      · refine Agrees.fail (Or.inr ?_)
        simp [Fault.rename, hctx.locate span]
  | .access base accessors span => by
      rw [expr, expr]
      refine (expr_agrees hctx base).bind fun e f hef => ?_
      refine (access_agrees hctx (hctx.locate span) accessors hef.type).bind ?_
      rintro ⟨x, es⟩ ⟨y, fs⟩ ⟨hxy, hes⟩
      refine Agrees.pure ?_
      simp [Bond.Via, Expr.rename, Info.rename, hef, hxy, hes, hctx.locate span]

/-- A chain of accessors resolved in two contexts of one file. -/
theorem access_agrees (hctx : b.Contexts c d) {site site' : Location}
    (hsite : b.Via Location.rename site site') :
    ∀ accessors {x y : Ty}, b.Via Ty.rename x y →
      Agrees b (fun p q => b.Via Ty.rename p.1 q.1 ∧ b.Via Expr.renameList p.2 q.2)
        (access c site x accessors) (access d site' y accessors)
  | [], x, y, hxy => by
      rw [access, access]
      exact Agrees.pure ⟨hxy, rfl⟩
  | .call arguments :: _, x, y, hxy => by
      rw [access, access]
      refine (exprs_agrees hctx arguments).bind fun _ _ _ => Agrees.fail (Or.inr ?_)
      simp [Fault.rename, hxy.text, hsite]
  | .index index :: rest, x, y, hxy => by
      rw [access, access]
      refine (expr_agrees hctx index).bind fun e f hef => ?_
      refine (expectInteger_agrees hef).bind fun _ _ _ => ?_
      -- only arrays can be indexed, and both sides have an array or neither has
      cases x with
      | object o =>
          cases y with
          | object o' =>
              refine Agrees.fail (Or.inr ?_)
              simp [Fault.rename, hxy.text, hsite]
          | array inner' count' => simp [Bond.Via, Ty.rename] at hxy
      | array inner count =>
          cases y with
          | object o' => simp [Bond.Via, Ty.rename] at hxy
          | array inner' count' =>
              simp only [Bond.Via, Ty.rename, Ty.array.injEq] at hxy
              refine (access_agrees hctx hsite rest hxy.1).bind ?_
              rintro ⟨z, es⟩ ⟨w, fs⟩ ⟨hzw, hes⟩
              refine Agrees.pure ⟨hzw, ?_⟩
              simp [Bond.Via, Expr.renameList, hef, hes]

/-- Arguments resolved in two contexts of one file. -/
theorem exprs_agrees (hctx : b.Contexts c d) :
    ∀ es, Agrees b (fun _ _ => True) (exprs c es) (exprs d es)
  | [] => by
      rw [exprs, exprs]
      exact Agrees.pure trivial
  | e :: es => by
      rw [exprs, exprs]
      exact (expr_agrees hctx e).bind fun _ _ _ => exprs_agrees hctx es

/-- A type resolved in two contexts of one file. -/
theorem typeExpr_agrees (hctx : b.Contexts c d) :
    ∀ t, Agrees b (b.Via Ty.rename) (typeExpr c t) (typeExpr d t)
  | .named name span => by
      rw [typeExpr, typeExpr]
      refine Agrees.get.bind fun s t hst => ?_
      have hfind := hst.scopes.findType name
      cases hs : s.scopes.findType name with
      | none =>
          cases ht : t.scopes.findType name with
          | none =>
              refine Agrees.fail (Or.inr ?_)
              simp [Fault.rename, hctx.locate span]
          | some y => simp [hs, ht] at hfind
      | some x =>
          cases ht : t.scopes.findType name with
          | none => simp [hs, ht] at hfind
          | some y =>
              rw [hs, ht, Option.map_some, Option.map_some, Option.some.injEq] at hfind
              exact Agrees.pure hfind
  | .array inner size _ => by
      rw [typeExpr, typeExpr]
      refine (typeExpr_agrees hctx inner).bind fun x y hxy => ?_
      refine (expr_agrees hctx size).bind fun e f hef => ?_
      refine (evaluate_agrees hef).bind fun v w hvw => Agrees.pure ?_
      simp [Bond.Via, Ty.rename, hxy, hvw]

end

/-! ## Constants, counts and conditions -/

/-- A constant is an expression that is computed at once. -/
theorem constant_agrees (hctx : b.Contexts c d) (e : Syntax.Expr) :
    Agrees b (fun v w => v = w) (constant c e) (constant d e) :=
  (expr_agrees hctx e).bind fun _ _ hef => evaluate_agrees hef

/-- A size that does not fit is refused on both sides. -/
theorem count_agrees (hctx : b.Contexts c d) (e : Syntax.Expr) :
    Agrees b (fun m n => m = n) (count c e) (count d e) :=
  (constant_agrees hctx e).bind fun _ _ hvw => Agrees.pure (by rw [hvw])

/-- A condition is an expression that has to be an integer. -/
theorem condition_agrees (hctx : b.Contexts c d) (e : Syntax.Expr) :
    Agrees b (b.Via Expr.rename) (condition c e) (condition d e) :=
  (expr_agrees hctx e).bind fun _ _ hef =>
    (expectInteger_agrees hef).bind fun _ _ _ => Agrees.pure hef

end Resolve

end ByteJump
