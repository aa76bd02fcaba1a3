import ByteJump.Proofs.Lexical.Elaborate

set_option autoImplicit false

/-!
# Typing rules

The types of expressions as rules that each part of an expression obeys, and what elaboration gives
obeys them: two operands have the same type, what a single operator, a condition or an index is
applied to is a number, and only arrays are indexed.

`Expr.Typed` states for each kind of expression what its type is and which types its operands may
have; `Expr.Reaches` does so for a row of accessors.  The elaboration checks the same things one
after the other, so the proof is a walk along it.  `Gives r post` says of a result that it
satisfies `post` if it is one, and `Makes` says so of a computation with a state; faults are of no
interest here, since what is rejected need not be typed.
-/

namespace ByteJump

/-! ## Rules

Literals, strings and labels have built-in types, and a variable has the type it was declared
with.  An operator keeps the type of its operands, but for a dereference, which gives a byte.  A
cast gives any value any type. -/

mutual

/-- Every part of an expression has the type that the rules give it. -/
def Expr.Typed (b : Builtins) : Expr → Prop
  | .int _ i => i.type = b.literal
  | .str _ i => i.type = b.string
  | .variable v i => i.type = v.type
  | .label _ i => i.type = b.address
  -- a cast gives any value any type
  | .cast operand _ => Expr.Typed b operand
  | .unary op operand i => Expr.Typed b operand ∧ operand.type.isInteger = true ∧
      i.type = if op = .deref then b.word .n8 else operand.type
  | .binary _ left right i => Expr.Typed b left ∧ Expr.Typed b right ∧
      left.type.same right.type = true ∧ i.type = left.type
  | .index base indices i => Expr.Typed b base ∧ Expr.Reaches b indices base.type i.type

/-- Numbers lead from a type to another one, each of them into the elements of an array. -/
def Expr.Reaches (b : Builtins) : List Expr → Ty → Ty → Prop
  | [], type, reached => reached = type
  | e :: es, .array element _, reached =>
      Expr.Typed b e ∧ e.type.isInteger = true ∧ Expr.Reaches b es element reached
  | _ :: _, .object _, _ => False

end

/-- All of several expressions obey the rules. -/
def Expr.ListTyped (b : Builtins) (es : List Expr) : Prop := ∀ e ∈ es, e.Typed b

mutual

/-- The expressions of a statement obey the rules, and so do the types of its variables. -/
def Stmt.Typed (b : Builtins) : Stmt → Prop
  | .mk _ action _ => Action.Typed b action

/-- Statements obey the rules. -/
def Stmt.ListTyped (b : Builtins) : List Stmt → Prop
  | [] => True
  | s :: ss => Stmt.Typed b s ∧ Stmt.ListTyped b ss

/-- A statement that may be absent obeys the rules. -/
def Stmt.OptionTyped (b : Builtins) : Option Stmt → Prop
  | some s => Stmt.Typed b s
  | none => True

/-- An action obeys the rules: a variable has the type of its value, but that of the largest numbers
if the value is a literal alone; conditions are numbers. -/
def Action.Typed (b : Builtins) : Action → Prop
  | .nothing | .place _ => True
  | .evaluate value | .goto value => value.Typed b
  | .define v value => value.Typed b ∧ v.count = none ∧
      v.type = if value.type.isLiteral then b.word .n128 else value.type
  | .reserve v => ∃ element count, v.count = some count ∧ v.type = .array element count
  | .assign target value => target.Typed b ∧ value.Typed b
  | .block body => Stmt.ListTyped b body
  | .branch condition taken otherwise =>
      (condition.Typed b ∧ condition.type.isInteger = true) ∧ Stmt.Typed b taken ∧
        Stmt.OptionTyped b otherwise
  | .loop condition body _ =>
      (condition.Typed b ∧ condition.type.isInteger = true) ∧ Stmt.Typed b body
  | .words values => Expr.ListTyped b values

end

namespace Elaborate

open Resolve (Context Imports)

variable {α β : Type} {c : Context} {env : Env}

/-! ## Expressions -/

/-- A value, if there is one, is of a kind. -/
def Gives (r : Except Fault α) (post : α → Prop) : Prop := ∀ a, r = .ok a → post a

section Gives

variable {post : α → Prop}

theorem Gives.ok {a : α} (h : post a) : Gives (.ok a) post := by
  rintro _ ⟨⟩
  exact h

theorem Gives.error {e : Fault} : Gives (.error e) post := nofun

/-- What holds of the first result may be used for the second one. -/
theorem Gives.bind {r : Except Fault β} {f : β → Except Fault α} {mid : β → Prop}
    (h : Gives r mid) (hf : ∀ b, mid b → Gives (f b) post) : Gives (r >>= f) post := by
  cases r with
  | ok b => exact hf b (h b rfl)
  | error e => exact Gives.error

/-- Nothing is said of the result. -/
theorem Gives.any (r : Except Fault α) : Gives r fun _ => True := fun _ _ => trivial

end Gives

/-- The check lets through integers only. -/
theorem integer_gives {e : Expr} (h : e.Typed c.builtins) :
    Gives (integer e) fun e => e.Typed c.builtins ∧ e.type.isInteger = true := by
  unfold integer
  split
  · exact .ok ⟨h, ‹_›⟩
  · exact .error

mutual

/-- One case for each kind of expression, after the check that belongs to it. -/
theorem expr_gives : ∀ e, Gives (expr c env e) (Expr.Typed c.builtins)
  | .int value span | .str text span | .label name span => by
      rw [expr]
      exact .ok rfl
  | .variable name span => by
      rw [expr]
      cases env.vars name with
      | some v => exact .ok rfl
      | none => exact .error
  | .cast operand target span => by
      rw [expr]
      exact (expr_gives operand).bind fun e he => (Gives.any _).bind fun type _ => .ok he
  | .unary op operand span => by
      rw [expr]
      refine (expr_gives operand).bind fun e he => ?_
      exact (integer_gives he).bind fun e he => .ok ⟨he.1, he.2, rfl⟩
  | .binary op left right span => by
      rw [expr]
      refine (expr_gives left).bind fun e he => (expr_gives right).bind fun f hf => ?_
      split
      · exact .ok ⟨he, hf, ‹_›, rfl⟩
      · exact .error
  | .access base accessors span => by
      rw [expr]
      refine (expr_gives base).bind fun e he => ?_
      exact (access_gives _ accessors e.type).bind fun p hp => .ok ⟨he, hp⟩

theorem access_gives (site : Location) : ∀ accessors type,
    Gives (access c env site type accessors) fun p => Expr.Reaches c.builtins p.2 type p.1
  | [], type => by
      rw [access]
      exact .ok rfl
  | .call arguments :: rest, type => by
      rw [access]
      exact (Gives.any _).bind fun _ _ => .error
  | .index index :: rest, type => by
      rw [access]
      refine (expr_gives index).bind fun e he => (integer_gives he).bind fun e he => ?_
      cases type with
      | object o => exact .error
      | array element count =>
          exact (access_gives site rest element).bind fun p hp => .ok ⟨he.1, he.2, hp⟩

end

/-- Each expression in the list is typed. -/
theorem exprs_gives (es : List Syntax.Expr) :
    Gives (exprs c env es) (Expr.ListTyped c.builtins) := by
  induction es with
  | nil =>
      rw [exprs]
      exact .ok (List.forall_mem_nil _)
  | cons e es ih =>
      rw [exprs]
      refine (expr_gives e).bind fun x hx => ih.bind fun xs hxs => .ok ?_
      exact List.forall_mem_cons.mpr ⟨hx, hxs⟩

theorem condition_gives (e : Syntax.Expr) : Gives (condition c env e)
    fun e => e.Typed c.builtins ∧ e.type.isInteger = true := by
  unfold condition
  exact (expr_gives e).bind fun e he => integer_gives he

/-! ## Statements -/

/-- A value that an elaboration gives, if there is one, is of a kind. -/
def Makes (x : Elaborating α) (post : α → Prop) : Prop :=
  ∀ tally I a J, x tally I = .ok a J → post a.1

section Makes

variable {post : α → Prop}

theorem Makes.pure {a : α} (h : post a) : Makes (Pure.pure a) post := by
  rintro tally I _ J ⟨⟩
  exact h

/-- As for results, with a state handed on. -/
theorem Makes.bind {x : Elaborating β} {f : β → Elaborating α} {mid : β → Prop} (h : Makes x mid)
    (hf : ∀ b, mid b → Makes (f b) post) : Makes (x >>= f) post := by
  intro tally I a J hrun
  replace hrun : EStateM.bind (x tally) (fun b => f b.1 b.2) I = .ok a J := hrun
  unfold EStateM.bind at hrun
  cases hx : x tally I with
  | ok b K =>
      rw [hx] at hrun
      exact hf b.1 (h tally I b K hx) b.2 K a J hrun
  | error e K =>
      rw [hx] at hrun
      cases hrun

/-- A check leaves the state alone. -/
theorem Makes.checked {r : Except Fault α} (h : Gives r post) : Makes (checked r) post := by
  cases r with
  | ok a => exact .pure (h a rfl)
  | error e => exact nofun

theorem Makes.any (x : Elaborating α) : Makes x fun _ => True := fun _ _ _ _ _ => trivial

end Makes

/-- An action that may be absent obeys the rules. -/
def OptionTyped (b : Builtins) (a : Option Action) : Prop := ∀ x, a = some x → x.Typed b

/-- Labels have no types. -/
theorem finish_typed {b : Builtins} {a : Option Action} (h : OptionTyped b a) (labels : List Label)
    (site : Location) : Stmt.OptionTyped b (Resolve.finish labels a site) := by
  unfold Resolve.finish
  cases a with
  | some a => exact h a rfl
  | none =>
      dsimp only
      split <;> trivial

theorem orNothing_typed {b : Builtins} {r : Option Stmt} (h : Stmt.OptionTyped b r)
    (s : Syntax.Stmt) : (Resolve.orNothing c s r).Typed b := by
  cases r with
  | some s => exact h
  | none => trivial

theorem listTyped_toList_append {b : Builtins} {first : Option Stmt} {rest : List Stmt}
    (h : Stmt.OptionTyped b first) (h' : Stmt.ListTyped b rest) :
    Stmt.ListTyped b (first.toList ++ rest) := by
  cases first with
  | some s => exact ⟨h, h'⟩
  | none => exact h'

/-- An action that is there. -/
theorem Makes.some {a : Action} {env : Env} (h : a.Typed c.builtins) :
    Makes (Pure.pure (some a, env)) fun p => OptionTyped c.builtins p.1 := by
  refine .pure ?_
  rintro _ ⟨⟩
  exact h

/-- No action is left. -/
theorem Makes.none {env : Env} :
    Makes (Pure.pure (none, env)) fun p => OptionTyped c.builtins p.1 := .pure nofun

mutual

theorem stmt_makes (depth : Nat) : ∀ (s : Syntax.Stmt) (env : Env),
    Makes (stmt c depth env s) fun p => Stmt.OptionTyped c.builtins p.1
  | .mk decls command span, env => by
      rw [stmt]
      refine (Makes.any _).bind fun front _ => (Makes.any _).bind fun more _ => ?_
      refine (action_makes depth _ command env).bind fun p hp => .pure ?_
      exact finish_typed hp _ _

/-- By induction on the statements. -/
theorem stmts_makes (depth : Nat) : ∀ (ss : List Syntax.Stmt) (env : Env),
    Makes (stmts c depth env ss) fun p => Stmt.ListTyped c.builtins p.1
  | [], env => by
      rw [stmts]
      exact .pure trivial
  | s :: ss, env => by
      rw [stmts]
      refine (stmt_makes depth s env).bind fun p hp => ?_
      exact (stmts_makes depth ss p.2).bind fun q hq => .pure (listTyped_toList_append hp hq)

theorem branch_makes (depth : Nat) : ∀ (s : Option Syntax.Stmt) (env : Env),
    Makes (branch c depth env s) fun p => Stmt.OptionTyped c.builtins p.1
  | none, env => by
      rw [branch]
      exact .pure trivial
  | some s, env => by
      rw [branch]
      exact (stmt_makes depth s env).bind fun p hp => .pure (orNothing_typed hp s)

/-- One case for each command. -/
theorem action_makes (depth : Nat) (site : Location) : ∀ (command : Syntax.Command) (env : Env),
    Makes (action c depth env site command) fun p => OptionTyped c.builtins p.1
  | .importFile file, env => by
      rw [action]
      exact (Makes.any _).bind fun p _ => .some trivial
  | .evaluate value, env | .goto value _, env => by
      rw [action]
      exact (Makes.checked (expr_gives value)).bind fun e he => .some he
  | .define name value, env => by
      rw [action]
      refine (Makes.checked (expr_gives value)).bind fun e he => ?_
      exact (Makes.any _).bind fun id _ => .some ⟨he, rfl, rfl⟩
  | .defineArray name size element, env => by
      rw [action]
      refine (Makes.any _).bind fun n _ => ?_
      cases element with
      | none =>
          exact (Makes.any _).bind fun type _ => (Makes.any _).bind fun id _ =>
            .some ⟨type, n, rfl, rfl⟩
      | some element =>
          exact (Makes.any _).bind fun type _ => (Makes.any _).bind fun id _ =>
            .some ⟨type, n, rfl, rfl⟩
  | .assign target value, env => by
      rw [action]
      refine (Makes.checked (expr_gives target)).bind fun e he => ?_
      exact (Makes.checked (expr_gives value)).bind fun f hf => .some ⟨he, hf⟩
  | .block body, env => by
      rw [action]
      exact (stmts_makes (depth + 1) body env).bind fun p hp => .some hp
  | .branch test taken otherwise, env => by
      rw [action]
      refine (Makes.checked (condition_gives test)).bind fun e he => ?_
      refine (stmt_makes (depth + 1) taken env).bind fun p hp => ?_
      exact (branch_makes (depth + 1) otherwise p.2).bind fun q hq =>
        .some ⟨he, orNothing_typed hp taken, hq⟩
  | .loop test body bodyFirst, env => by
      rw [action]
      refine (Makes.checked (condition_gives test)).bind fun e he => ?_
      exact (stmt_makes (depth + 1) body env).bind fun p hp => .some ⟨he, orNothing_typed hp body⟩
  | .struct name members, env => by
      rw [action]
      exact (Makes.any _).bind fun env _ => .none
  | .words values, env => by
      rw [action]
      exact (Makes.checked (exprs_gives values)).bind fun es hes => .some hes
  | .pragma name value, env => by
      rw [action]
      exact (Makes.any _).bind fun _ _ => .none

end

/-- A file obeys the rules. -/
theorem file_typed {tree : Syntax.Program} {I J : Imports} {ss : List Stmt} {tally : Tally}
    (h : file c tree I = .ok (ss, tally) J) : Stmt.ListTyped c.builtins ss := by
  rw [file_run] at h
  have hmakes := stmts_makes (c := c) 0 tree (.builtin c.builtins) ⟨0, .none, .default⟩ I
  cases hrun : stmts c 0 (.builtin c.builtins) tree ⟨0, .none, .default⟩ I with
  | ok done K =>
      rw [hrun] at h
      cases h
      exact hmakes done J hrun
  | error e K =>
      rw [hrun] at h
      cases h

end Elaborate

end ByteJump
