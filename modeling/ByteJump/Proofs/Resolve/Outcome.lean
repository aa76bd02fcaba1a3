import Mathlib.Tactic.Convert
import ByteJump.Proofs.ConstantValues
import ByteJump.Proofs.Proper
import ByteJump.Proofs.Resolve.SameFile

set_option autoImplicit false

/-!
# What resolving ends with

A computation inside a file ends with a value or with a fault.  `Ends` states what holds in either
case, and one rule for each way of putting computations together carries it through a file.

Expressions only look at the scopes: their outcome does not depend on the imports, they leave
everything as it was, and no fault of theirs is about imports.  Every variable in what they give is
one that a name means, and what a test or a dereference applies to is a number.

The rules for `Ends` are those of a triple with two postconditions, one for values and one for
faults; all walks over the resolver in the other modules are built from them.  `Looks` is the
special case of a computation that reads the scopes and changes nothing.  As its outcome does not
depend on the imports, a look can be put in front of any computation, by `Ends.look`, without a
word about imports.
-/

namespace ByteJump

/-- The fault tells that imports nest in a circle, or too deep. -/
def Fault.isNesting : Fault → Bool
  | .importCycle .. | .internal .. => true
  | _ => false

/-- The variable is declared in one of the scopes. -/
def Scopes.Declares (s : Scopes) (v : Variable) : Prop :=
  ∃ frame ∈ s.frames, ∃ name, (name, v) ∈ frame.vars

/-- Some name means the variable in the open scope. -/
def Scopes.Finds (s : Scopes) (v : Variable) : Prop := ∃ name, s.findVariable name = some v

theorem Scopes.Finds.declares {s : Scopes} {v : Variable} (h : s.Finds v) : s.Declares v := by
  obtain ⟨name, h⟩ := h
  obtain ⟨scope, -, hscope⟩ := List.exists_of_findSome?_eq_some h
  cases hframe : s.frames[scope]? with
  | none => simp [hframe] at hscope
  | some frame =>
      rw [hframe] at hscope
      obtain ⟨before, behind, hvars, -⟩ := List.lookup_eq_some_iff.mp hscope
      exact ⟨frame, Array.mem_of_getElem? hframe, name, by simp [hvars]⟩

namespace Resolve

variable {α β : Type}

/-! ## Ends of computations -/

/-- The computation ends with `post` for its value, the state and the imports, or with `raise` for
its fault and the imports. -/
def Ends (x : Resolving α) (post : α → State → Imports → Prop) (raise : Fault → Imports → Prop)
    (s : State) (I : Imports) : Prop :=
  match x s I with
  | .ok a I' => post a.1 a.2 I'
  | .error e I' => raise e I'

section Ends

variable {post : α → State → Imports → Prop} {raise : Fault → Imports → Prop} {s : State}
  {I : Imports}

theorem Ends.pure {a : α} (h : post a s I) : Ends (Pure.pure a) post raise s I := h

theorem Ends.fail {e : Fault} (h : raise e I) : Ends (fail e : Resolving α) post raise s I := h

/-- The second part is looked at where the first one ends. -/
theorem Ends.bind {x : Resolving β} {f : β → Resolving α}
    (h : Ends x (fun b t J => Ends (f b) post raise t J) raise s I) :
    Ends (x >>= f) post raise s I := by
  unfold Ends at h ⊢
  have hrun : (x >>= f) s I =
      match x s I with
      | .ok b I' => f b.1 b.2 I'
      | .error e I' => .error e I' := by
    show EStateM.bind (x s) (fun b => f b.1 b.2) I = _
    unfold EStateM.bind
    cases x s I <;> rfl
  rw [hrun]
  cases hx : x s I with
  | ok b I' =>
      rw [hx] at h
      exact h
  | error e I' =>
      rw [hx] at h
      exact h

/-- Both postconditions are weakened. -/
theorem Ends.mono {post' : α → State → Imports → Prop} {raise' : Fault → Imports → Prop}
    {x : Resolving α} (h : Ends x post' raise' s I) (hpost : ∀ a t J, post' a t J → post a t J)
    (hraise : ∀ e J, raise' e J → raise e J) : Ends x post raise s I := by
  unfold Ends at h ⊢
  split
  · rename_i hx
    rw [hx] at h
    exact hpost _ _ _ h
  · rename_i hx
    rw [hx] at h
    exact hraise _ _ h

/-- A first part and what comes behind it, which may start from all that the first one says. -/
theorem Ends.andThen {M : β → State → Imports → Prop} {x : Resolving β} {f : β → Resolving α}
    (h : Ends x M raise s I) (hf : ∀ b t J, M b t J → Ends (f b) post raise t J) :
    Ends (x >>= f) post raise s I :=
  Ends.bind (h.mono hf fun _ _ h => h)

/-- Loading a file leaves the state of this file alone. -/
theorem Ends.lift {x : Loading α} {result : EStateM.Result Fault Imports α}
    (h : match result with
      | .ok a J => post a s J
      | .error e J => raise e J)
    (hx : x I = result) : Ends (liftM x) post raise s I := by
  have hrun : (liftM x : Resolving α) s I =
      match x I with
      | .ok a J => .ok (a, s) J
      | .error e J => .error e J := by
    show EStateM.bind x (fun a => EStateM.pure (a, s)) I = _
    unfold EStateM.bind
    cases x I <;> rfl
  unfold Ends
  rw [hrun, hx]
  cases result with
  | ok a J => exact h
  | error e J => exact h

/-- An update ends with the changed state. -/
theorem Ends.update {f : State → State} {post : PUnit → State → Imports → Prop}
    (h : post ⟨⟩ (f s) I) : Ends (modify f) post raise s I := h

end Ends

/-! ## Looking -/

/-- The computation only looks at the state: it gives a value with `post` or a fault that is not
about imports, whatever the imports are, and leaves everything as it was. -/
def Looks (x : Resolving α) (post : α → Prop) (s : State) : Prop :=
  (∃ a, post a ∧ ∀ I, x s I = .ok (a, s) I) ∨
    ∃ e, Fault.isNesting e = false ∧ ∀ I, x s I = .error e I

section Looks

variable {s : State} {post : α → Prop}

theorem Looks.pure {a : α} (h : post a) : Looks (Pure.pure a) post s :=
  Or.inl ⟨a, h, fun _ => rfl⟩

theorem Looks.fail {e : Fault} (h : e.isNesting = false) : Looks (fail e : Resolving α) post s :=
  Or.inr ⟨e, h, fun _ => rfl⟩

/-- What was found first may be used in what is looked up next. -/
theorem Looks.bind {x : Resolving β} {f : β → Resolving α} {M : β → Prop} (h : Looks x M s)
    (hf : ∀ b, M b → Looks (f b) post s) : Looks (x >>= f) post s := by
  rcases h with ⟨b, hb, hx⟩ | ⟨e, he, hx⟩
  · have hrun : ∀ I, (x >>= f) s I = f b s I := by
      intro I
      show EStateM.bind (x s) (fun b => f b.1 b.2) I = _
      simp [EStateM.bind, hx]
    simp only [Looks, hrun]
    exact hf b hb
  · refine Or.inr ⟨e, he, fun I => ?_⟩
    show EStateM.bind (x s) (fun b => f b.1 b.2) I = _
    simp [EStateM.bind, hx]

theorem Looks.get {f : State → Resolving α} (h : Looks (f s) post s) :
    Looks (MonadState.get >>= f) post s :=
  Looks.bind (M := fun t => t = s) (Looks.pure rfl) fun t ht => by rw [ht]; exact h

/-- A computation without a state looks at nothing. -/
theorem Looks.ofExcept {x : Except Fault α} (hok : ∀ a, x = .ok a → post a)
    (herror : ∀ e, x = .error e → e.isNesting = false) : Looks (ofExcept x) post s := by
  cases x with
  | ok a => exact Looks.pure (hok a rfl)
  | error e => exact Looks.fail (herror e rfl)

/-- Faults may be replaced by other faults that are not about imports either. -/
theorem Looks.recast {x : Resolving α} {φ : Fault → Fault} (h : Looks x post s)
    (hfault : ∀ e, e.isNesting = false → (φ e).isNesting = false) :
    Looks (tryCatch x fun e => Resolve.fail (φ e)) post s := by
  rcases h with ⟨a, ha, hx⟩ | ⟨e, he, hx⟩
  · refine Or.inl ⟨a, ha, fun I => ?_⟩
    show EStateM.tryCatch (x s) (fun e => Resolve.fail (φ e) s) I = _
    simp [EStateM.tryCatch, hx]
  · refine Or.inr ⟨φ e, hfault e he, fun I => ?_⟩
    show EStateM.tryCatch (x s) (fun e => Resolve.fail (φ e) s) I = _
    simp [EStateM.tryCatch, hx]
    rfl

/-- What looks at the state ends with the state and the imports as they were. -/
theorem Looks.ends {x : Resolving α} (h : Looks x post s) (I : Imports) :
    Ends x (fun a t J => post a ∧ t = s ∧ J = I) (fun e J => e.isNesting = false ∧ J = I) s I := by
  unfold Ends
  rcases h with ⟨a, ha, hx⟩ | ⟨e, he, hx⟩
  · rw [hx]
    exact ⟨ha, rfl, rfl⟩
  · rw [hx]
    exact ⟨he, rfl⟩

/-- A look in front of a computation changes neither the state nor the imports. -/
theorem Ends.look {x : Resolving β} {f : β → Resolving α} {Q : β → Prop}
    {post : α → State → Imports → Prop} {raise : Fault → Imports → Prop} {I : Imports}
    (h : Looks x Q s) (hraise : ∀ e, raise e I) (hf : ∀ b, Q b → Ends (f b) post raise s I) :
    Ends (x >>= f) post raise s I := by
  refine Ends.bind ((h.ends I).mono ?_ ?_)
  · rintro b t J ⟨hb, rfl, rfl⟩
    exact hf b hb
  · rintro e J ⟨-, rfl⟩
    exact hraise e

end Looks

/-! ## Constants

The faults of a constant are about its own parts. -/

/-- A constant that cannot be computed has nothing to do with imports. -/
theorem isNesting_of_evaluate {e : Expr} {f : Fault}
    (h : Constant.evaluate Constant.unplaced e = .error f) : f.isNesting = false := by
  obtain ⟨n, -, hfault⟩ := Constant.exists_fault h
  rcases Constant.fault?_cases hfault with
    ⟨text, i, rfl, hx⟩ | ⟨use, i, rfl, hx⟩ | rfl | ⟨type, rfl⟩ | rfl
  · cases hx
    rfl
  · simp only [Constant.unplaced, Constant.ofTarget] at hx
    split at hx <;> cases hx <;> rfl
  · rfl
  · rfl
  · rfl

/-! ## Expressions and types

The functions on expressions, accessors and types are recursive in one another, and so are these
lemmas. -/

theorem expectInteger_looks (e : Expr) (s : State) :
    Looks (expectInteger e) (fun _ => e.type.isInteger = true) s := by
  unfold expectInteger
  split
  · exact Looks.pure ‹_›
  · exact Looks.fail rfl

mutual

/-- One case for each kind of expression.  A variable is one that its name means. -/
theorem expr_looks (c : Context) :
    ∀ e s, Looks (expr c e) (Expr.Proper s.scopes.Finds) s
  | .int value span, s | .str text span, s => by
      rw [expr]
      exact Looks.pure trivial
  | .variable name span, s => by
      rw [expr]
      refine Looks.get ?_
      cases hfind : s.scopes.findVariable name with
      | none => exact Looks.fail rfl
      | some v => exact Looks.pure ⟨name, hfind⟩
  | .label name span, s => by
      rw [expr]
      exact Looks.get (Looks.pure trivial)
  | .cast operand target span, s => by
      rw [expr]
      refine (expr_looks c operand s).bind fun e he => ?_
      exact (typeExpr_looks c target s).bind fun type _ => Looks.pure he
  | .unary op operand span, s => by
      rw [expr]
      refine (expr_looks c operand s).bind fun e he => ?_
      exact (expectInteger_looks e s).bind fun _ hinteger => Looks.pure ⟨hinteger, he⟩
  | .binary op left right span, s => by
      rw [expr]
      refine (expr_looks c left s).bind fun e he => ?_
      refine (expr_looks c right s).bind fun f hf => ?_
      split
      · exact Looks.pure ⟨he, hf⟩
      · exact Looks.fail rfl
  | .access base accessors span, s => by
      rw [expr]
      refine (expr_looks c base s).bind fun e he => ?_
      exact (access_looks c _ accessors e.type s).bind fun p hp => Looks.pure ⟨he, hp⟩

theorem access_looks (c : Context) (site : Location) :
    ∀ accessors type s,
      Looks (access c site type accessors) (fun p => Expr.AllProper s.scopes.Finds p.2) s
  | [], type, s => by
      rw [access]
      exact Looks.pure trivial
  | .call arguments :: rest, type, s => by
      rw [access]
      exact (exprs_looks c arguments s).bind fun _ _ => Looks.fail rfl
  | .index index :: rest, type, s => by
      rw [access]
      refine (expr_looks c index s).bind fun e he => ?_
      refine (expectInteger_looks e s).bind fun _ _ => ?_
      cases type with
      | object o => exact Looks.fail rfl
      | array inner count =>
          exact (access_looks c site rest inner s).bind fun p hp => Looks.pure ⟨he, hp⟩

theorem exprs_looks (c : Context) : ∀ es s, Looks (exprs c es) (fun _ => True) s
  | [], s => by
      rw [exprs]
      exact Looks.pure trivial
  | e :: es, s => by
      rw [exprs]
      exact (expr_looks c e s).bind fun _ _ => exprs_looks c es s

/-- A named type is looked up; an array has a size, which is an expression. -/
theorem typeExpr_looks (c : Context) : ∀ t s, Looks (typeExpr c t) (fun _ => True) s
  | .named name span, s => by
      rw [typeExpr]
      refine Looks.get ?_
      cases s.scopes.findType name with
      | none => exact Looks.fail rfl
      | some type => exact Looks.pure trivial
  | .array inner size span, s => by
      rw [typeExpr]
      refine (typeExpr_looks c inner s).bind fun type _ => ?_
      refine (expr_looks c size s).bind fun e _ => ?_
      refine Looks.bind (M := fun _ => True)
        (Looks.ofExcept (fun _ _ => trivial) fun f hf => isNesting_of_evaluate hf) ?_
      exact fun _ _ => Looks.pure trivial

end

theorem constant_looks (c : Context) (e : Syntax.Expr) (s : State) :
    Looks (constant c e) (fun _ => True) s := by
  unfold constant
  refine (expr_looks c e s).bind fun e _ => ?_
  exact Looks.ofExcept (fun _ _ => trivial) fun f hf => isNesting_of_evaluate hf

theorem count_looks (c : Context) (e : Syntax.Expr) (s : State) :
    Looks (count c e) (fun _ => True) s := by
  unfold count
  exact (constant_looks c e s).bind fun _ _ => Looks.pure trivial

/-- The check behind a condition lets through integers only. -/
theorem condition_looks (c : Context) (e : Syntax.Expr) (s : State) :
    Looks (condition c e) (fun e => e.type.isInteger = true ∧ e.Proper s.scopes.Finds) s := by
  unfold condition
  refine (expr_looks c e s).bind fun e he => ?_
  exact (expectInteger_looks e s).bind fun _ hinteger => Looks.pure ⟨hinteger, he⟩

theorem exprList_looks (c : Context) :
    ∀ es s, Looks (exprList c es) (Expr.AllProper s.scopes.Finds) s
  | [], s => by
      rw [exprList]
      exact Looks.pure trivial
  | e :: es, s => by
      rw [exprList]
      refine (expr_looks c e s).bind fun x hx => ?_
      exact (exprList_looks c es s).bind fun xs hxs => Looks.pure ⟨hx, hxs⟩

/-! ## Structs and pragmas -/

/-- By induction on the fields. -/
theorem structFields_looks {c : Context} (struct : String) :
    ∀ fields done s, Looks (structFields c struct done fields) (fun _ => True) s
  | [], done, s => by
      rw [structFields]
      exact Looks.pure trivial
  | field :: fields, done, s => by
      rw [structFields]
      split
      · exact Looks.fail rfl
      · exact (typeExpr_looks c field.type s).bind fun _ _ => structFields_looks struct fields _ s

/-- The constant is computed and checked. -/
theorem alignment_looks {c : Context} (value : Option Syntax.Expr) (site : Location) (s : State) :
    Looks (alignment c value site) (fun n => 1 ≤ n ∧ n ≤ Memory.maxAlign) s := by
  cases value with
  | none => exact Looks.fail rfl
  | some value =>
      have hconstant : Looks (tryCatch (constant c value) fun fault => Resolve.fail
          (alignmentFault site fault)) (fun _ => True) s := by
        refine Looks.recast (constant_looks c value s) fun e he => ?_
        cases e <;> first | rfl | exact he
      refine Looks.bind (M := fun _ => True) ?_ fun n _ => ?_
      · convert hconstant using 3
        rename_i fault
        cases fault <;> rfl
      · split
        · rename_i haccepted
          exact Looks.pure haccepted
        · exact Looks.fail rfl

/-! ## Import statements -/

/-- How an import statement ends: its file is missing, or being resolved, or it ends as finding the
file does, and then what the file exports is merged. -/
theorem importNamed_ends {c : Context} {name : String} {site : Location} {I : Imports} {s : State}
    {post : Program → State → Imports → Prop} {raise : Fault → Imports → Prop}
    (hmissing : c.source.target c.searchPaths name = none →
      raise (.importNotFound name (c.searchPaths.map fun dir => dir.join name) site) I)
    (hcycle : ∀ path, c.source.target c.searchPaths name = some path →
      (c.source.identity path).key ∈ c.active.map Path.key →
      raise (.importCycle (c.active ++ [c.source.identity path]) site) I)
    (hfound : ∀ path, c.source.target c.searchPaths name = some path →
      (c.source.identity path).key ∉ c.active.map Path.key →
      match importFound c (c.source.identity path) I with
      | .ok p J => Ends (do merge p.exports; return p) post raise s J
      | .error e J => raise e J) : Ends (importNamed c name site) post raise s I := by
  unfold importNamed
  dsimp only
  cases hfind : (c.searchPaths.map fun dir => dir.join name).find? c.source.contains with
  | none => exact Ends.fail (hmissing hfind)
  | some path =>
      dsimp only
      split
      · rename_i hactive
        exact Ends.fail (hcycle path hfind (any_same_iff.mp hactive))
      · rename_i hactive
        have hend := hfound path hfind fun hmem => hactive (any_same_iff.mpr hmem)
        refine Ends.bind (Ends.lift ?_
          (show _ = importFound c (c.source.identity path) I from rfl))
        cases hrun : importFound c (c.source.identity path) I with
        | ok p J =>
            rw [hrun] at hend
            exact hend
        | error e J =>
            rw [hrun] at hend
            exact hend

end Resolve

end ByteJump
