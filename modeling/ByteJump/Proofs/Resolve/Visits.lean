import ByteJump.Proofs.Resolve.Outcome
import ByteJump.Proofs.Visible

set_option autoImplicit false

/-!
# Statements that are visited

While statements are resolved, each of them and of those inside them is resolved from a state of its
own.  The variables that are visible in this state are those that a name may mean there.
-/

namespace ByteJump

namespace Resolve

/-- While statements are resolved from a state on, a statement among them or inside them is resolved
from another state. -/
inductive Visits (c : Context) : Nat → List Syntax.Stmt → State → Imports →
    Nat → Syntax.Stmt → State → Imports → Prop
  | here {depth : Nat} {stx : Syntax.Stmt} {ss : List Syntax.Stmt} {s : State} {I : Imports} :
      Visits c depth (stx :: ss) s I depth stx s I
  /-- behind the first statement -/
  | behind {depth depth' : Nat} {first stx : Syntax.Stmt} {ss : List Syntax.Stmt} {s t u : State}
      {I J K : Imports} {r : Option Stmt} (hfirst : stmt c depth first s I = .ok (r, t) J)
      (h : Visits c depth ss t J depth' stx u K) : Visits c depth (first :: ss) s I depth' stx u K
  /-- inside a block, in a new scope -/
  | block {depth depth' : Nat} {decls : List Syntax.LabelDecl} {body ss : List Syntax.Stmt}
      {span : Span} {stx : Syntax.Stmt} {s t u : State} {I J K : Imports} {ls : List Label}
      (hlabels : declareLabels c decls s I = .ok (ls, t) J)
      (h : Visits c (depth + 1) body { t with scopes := t.scopes.push } J depth' stx u K) :
      Visits c depth (.mk decls (.block body) span :: ss) s I depth' stx u K
  | taken {depth depth' : Nat} {decls : List Syntax.LabelDecl} {test : Syntax.Expr}
      {taken : Syntax.Stmt} {otherwise : Option Syntax.Stmt} {ss : List Syntax.Stmt} {span : Span}
      {stx : Syntax.Stmt} {s t v u : State} {I J L K : Imports} {ls : List Label} {e : Expr}
      (hlabels : declareLabels c decls s I = .ok (ls, t) J)
      (htest : condition c test t J = .ok (e, v) L)
      (h : Visits c (depth + 1) [taken] v L depth' stx u K) :
      Visits c depth (.mk decls (.branch test taken otherwise) span :: ss) s I depth' stx u K
  | otherwise {depth depth' : Nat} {decls : List Syntax.LabelDecl} {test : Syntax.Expr}
      {taken other : Syntax.Stmt} {ss : List Syntax.Stmt} {span : Span} {stx : Syntax.Stmt}
      {s t v w u : State} {I J L M K : Imports} {ls : List Label} {e : Expr} {r : Option Stmt}
      (hlabels : declareLabels c decls s I = .ok (ls, t) J)
      (htest : condition c test t J = .ok (e, v) L)
      (htaken : stmt c (depth + 1) taken v L = .ok (r, w) M)
      (h : Visits c (depth + 1) [other] w M depth' stx u K) :
      Visits c depth (.mk decls (.branch test taken (some other)) span :: ss) s I depth' stx u K
  | body {depth depth' : Nat} {decls : List Syntax.LabelDecl} {test : Syntax.Expr}
      {body : Syntax.Stmt} {bodyFirst : Bool} {ss : List Syntax.Stmt} {span : Span}
      {stx : Syntax.Stmt} {s t v u : State} {I J L K : Imports} {ls : List Label} {e : Expr}
      (hlabels : declareLabels c decls s I = .ok (ls, t) J)
      (htest : condition c test t J = .ok (e, v) L)
      (h : Visits c (depth + 1) [body] v L depth' stx u K) :
      Visits c depth (.mk decls (.loop test body bodyFirst) span :: ss) s I depth' stx u K

variable {c : Context}

/-- More statements behind. -/
theorem Visits.append {depth depth' : Nat} {first stx : Syntax.Stmt} {s u : State} {I K : Imports}
    (h : Visits c depth [first] s I depth' stx u K) (ss : List Syntax.Stmt) :
    Visits c depth (first :: ss) s I depth' stx u K := by
  cases h with
  | here => exact .here
  | behind _ h => cases h
  | block hlabels h => exact .block hlabels h
  | taken hlabels htest h => exact .taken hlabels htest h
  | otherwise hlabels htest htaken h => exact .otherwise hlabels htest htaken h
  | body hlabels htest h => exact .body hlabels htest h

/-- While statements are resolved, a statement is made of one of them or of one inside them, where
some variables are visible. -/
def Made (c : Context) (depth : Nat) (ss : List Syntax.Stmt) (s : State) (I : Imports)
    (around : List Variable) (st : Stmt) : Prop :=
  ∃ depth' stx u K r t L, Visits c depth ss s I depth' stx u K ∧ u.scopes.visible = around ∧
    stmt c depth' stx u K = .ok (r, t) L ∧ orNothing c stx r = st

theorem Made.mono {depth depth' : Nat} {ss ss' : List Syntax.Stmt} {s s' : State} {I I' : Imports}
    {around : List Variable} {st : Stmt} (h : Made c depth ss s I around st)
    (hvisits : ∀ {depth'' : Nat} {stx : Syntax.Stmt} {u : State} {K : Imports},
      Visits c depth ss s I depth'' stx u K → Visits c depth' ss' s' I' depth'' stx u K) :
    Made c depth' ss' s' I' around st := by
  obtain ⟨depth'', stx, u, K, r, t, L, h, hvisible, hrun, hmade⟩ := h
  exact ⟨depth'', stx, u, K, r, t, L, hvisits h, hvisible, hrun, hmade⟩

/-- A file was resolved, and a statement of it was made where some variables were visible; its uses
of labels were bound when the whole file was known. -/
def MadeIn (p : Program) (around : List Variable) (st : Stmt) : Prop :=
  ∃ c tree I J ss s st₀, file c tree I = .ok p J ∧
    openFile c tree (.start c.builtins) I = .ok (ss, s) J ∧
    Made c 0 tree (.start c.builtins) I around st₀ ∧ Stmt.bind s.scopes.findLabel st₀ = .ok st

/-- A computation that ended well ended well in both of its parts. -/
theorem ok_bind {α β : Type} {x : Resolving β} {f : β → Resolving α} {s t : State}
    {I J : Imports} {a : α} (h : (x >>= f) s I = .ok (a, t) J) :
    ∃ b u K, x s I = .ok (b, u) K ∧ f b u K = .ok (a, t) J := by
  replace h : EStateM.bind (x s) (fun b => f b.1 b.2) I = .ok (a, t) J := h
  unfold EStateM.bind at h
  cases hx : x s I with
  | ok b K =>
      rw [hx] at h
      exact ⟨b.1, b.2, K, rfl, h⟩
  | error e K =>
      rw [hx] at h
      cases h

theorem Ends.of_ok {α : Type} {x : Resolving α} {post : α → State → Imports → Prop}
    {raise : Fault → Imports → Prop} {s t : State} {I J : Imports} {a : α}
    (h : Ends x post raise s I) (hrun : x s I = .ok (a, t) J) : post a t J := by
  unfold Ends at h
  rw [hrun] at h
  exact h

end Resolve

end ByteJump
