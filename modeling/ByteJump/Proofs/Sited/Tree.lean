import ByteJump.Proofs.ConstantArithmetic
import ByteJump.Resolve.Label

set_option autoImplicit false

/-!
# Places in trees and in programs

The spans of a tree are those of all its parts.  In a resolved program all places that a fault can
name are among some given ones if those of its expressions are, those of the variables it declares,
and those of the files it imports.  Binding label uses and computing constants name no other places.

A fault names at most one place.  `FaultsIn among x post` says of a result that its value
satisfies `post`, or that its fault is placed among the given places, or nowhere at all.  For
trees the places are collected in lists, `spans`, so that a hypothesis on a tree splits into
hypotheses on its parts; for programs they are followed by a recursion, as imported files have
places in other files.
-/

namespace ByteJump

/-! ## Spans of a tree -/

namespace Syntax

mutual

/-- The spans of an expression and its parts. -/
def Expr.spans : Expr → List Span
  | .cast operand target span => span :: (Expr.spans operand ++ TypeExpr.spans target)
  | .access base accessors span => span :: (Expr.spans base ++ Accessor.listSpans accessors)
  | .int _ span | .str _ span | .variable _ span | .label _ span => [span]
  | .unary _ operand span => span :: Expr.spans operand
  | .binary _ left right span => span :: (Expr.spans left ++ Expr.spans right)

/-- The spans in a chain of accessors. -/
def Accessor.listSpans : List Accessor → List Span
  | [] => []
  | .call arguments :: rest => Expr.listSpans arguments ++ Accessor.listSpans rest
  | .index index :: rest => Expr.spans index ++ Accessor.listSpans rest

/-- The spans of expressions and their parts. -/
def Expr.listSpans : List Expr → List Span
  | [] => []
  | e :: es => Expr.spans e ++ Expr.listSpans es

/-- The spans of a type and its parts. -/
def TypeExpr.spans : TypeExpr → List Span
  | .named _ span => [span]
  | .array inner size span => span :: (TypeExpr.spans inner ++ Expr.spans size)

end

/-- The spans of the field of a struct and its parts. -/
def Field.spans (f : Field) : List Span := f.span :: f.type.spans

mutual

/-- The spans of a statement and its parts. -/
def Stmt.spans : Stmt → List Span
  | .mk labels command span => span :: (labels.map LabelDecl.span ++ Command.spans command)

/-- The spans of statements and their parts. -/
def Stmt.listSpans : List Stmt → List Span
  | [] => []
  | s :: ss => Stmt.spans s ++ Stmt.listSpans ss

/-- The spans of a statement and its parts that may be absent. -/
def Stmt.optionSpans : Option Stmt → List Span
  | some s => Stmt.spans s
  | none => []

/-- The spans of the parts of a command. -/
def Command.spans : Command → List Span
  | .importFile file => [file.span]
  | .evaluate value => value.spans
  | .goto target labels => target.spans ++ labels.map LabelDecl.span
  | .define name value => name.span :: value.spans
  | .defineArray name size element =>
      name.span :: (size.spans ++ (element.map TypeExpr.spans).getD [])
  | .assign target value => target.spans ++ value.spans
  | .block body => Stmt.listSpans body
  | .branch condition taken otherwise =>
      condition.spans ++ (Stmt.spans taken ++ Stmt.optionSpans otherwise)
  | .loop condition body _ => condition.spans ++ Stmt.spans body
  | .struct name fields => name.span :: fields.flatMap Field.spans
  | .words values => Expr.listSpans values
  | .pragma name value => name.span :: (value.map Expr.spans).getD []

end

end Syntax

/-! ## Places in a program -/

section SitesIn

variable (among : Location → Prop)

/-- The place of the fault, if it has one, is among the given ones. -/
def Fault.SiteIn (e : Fault) : Prop := ∀ site, e.site? = some site → among site

mutual

/-- The places of an expression and its parts are among the given ones. -/
def Expr.SitesIn : Expr → Prop
  | .int _ i | .str _ i | .variable _ i | .label _ i => among i.site
  | .cast operand i | .unary _ operand i => among i.site ∧ Expr.SitesIn operand
  | .binary _ left right i => among i.site ∧ Expr.SitesIn left ∧ Expr.SitesIn right
  | .index base indices i => among i.site ∧ Expr.SitesIn base ∧ Expr.AllSitesIn indices

/-- The places of expressions and their parts are among the given ones. -/
def Expr.AllSitesIn : List Expr → Prop
  | [] => True
  | e :: es => Expr.SitesIn e ∧ Expr.AllSitesIn es

end

mutual

/-- The places that a fault in a statement can name are among the given ones. -/
def Stmt.SitesIn : Stmt → Prop
  | .mk _ action _ => Action.SitesIn action

/-- The places that a fault in statements can name are among the given ones. -/
def Stmt.ListSitesIn : List Stmt → Prop
  | [] => True
  | s :: ss => Stmt.SitesIn s ∧ Stmt.ListSitesIn ss

/-- The places that a fault in a statement can name that may be absent are among the given ones. -/
def Stmt.OptionSitesIn : Option Stmt → Prop
  | some s => Stmt.SitesIn s
  | none => True

/-- The places that a fault in an action can name are among the given ones. -/
def Action.SitesIn : Action → Prop
  | .nothing => True
  | .place file => Program.SitesIn file
  | .evaluate value | .goto value => value.SitesIn among
  | .define v value => among v.site ∧ value.SitesIn among
  | .reserve v => among v.site
  | .assign target value => target.SitesIn among ∧ value.SitesIn among
  | .block body => Stmt.ListSitesIn body
  | .branch condition taken otherwise =>
      condition.SitesIn among ∧ Stmt.SitesIn taken ∧ Stmt.OptionSitesIn otherwise
  | .loop condition body _ => condition.SitesIn among ∧ Stmt.SitesIn body
  | .words values => Expr.AllSitesIn among values

/-- The places that a fault in a file can name are among the given ones. -/
def Program.SitesIn : Program → Prop
  | .mk _ statements _ _ => Stmt.ListSitesIn statements

end

end SitesIn

variable {among : Location → Prop}

/-- A fault without a place is placed anywhere. -/
theorem Fault.siteIn_of_none {e : Fault} (h : e.site? = none) : e.SiteIn among := by
  intro site hsite
  rw [h] at hsite
  cases hsite

theorem Fault.siteIn_of_some {e : Fault} {site : Location} (h : e.site? = some site)
    (hsite : among site) : e.SiteIn among := by
  intro other hother
  rw [h] at hother
  exact Option.some.inj hother ▸ hsite

/-- The place of an expression is one of its places. -/
theorem Expr.SitesIn.site : ∀ {e : Expr}, e.SitesIn among → among e.site
  | .int .., h | .str .., h | .variable .., h | .label .., h => h
  | .cast .., h | .unary .., h | .binary .., h | .index .., h => h.1

theorem Stmt.listSitesIn_append {ss more : List Stmt} (h : Stmt.ListSitesIn among ss)
    (hmore : Stmt.ListSitesIn among more) : Stmt.ListSitesIn among (ss ++ more) := by
  induction ss with
  | nil => exact hmore
  | cons s ss ih => exact ⟨h.1, ih h.2⟩

/-! ## Results -/

/-- The result is a value with `post`, or a fault whose place is among the given ones. -/
def FaultsIn {α : Type} (among : Location → Prop) (x : Except Fault α) (post : α → Prop) : Prop :=
  match x with
  | .ok a => post a
  | .error e => e.SiteIn among

section FaultsIn

variable {α β : Type} {post : α → Prop} {mid : β → Prop}

/-- A fault of either part is placed. -/
theorem FaultsIn.bind {x : Except Fault β} {f : β → Except Fault α} (h : FaultsIn among x mid)
    (hf : ∀ b, mid b → FaultsIn among (f b) post) : FaultsIn among (x >>= f) post := by
  cases x with
  | ok b => exact hf b h
  | error e => exact h

theorem FaultsIn.fault {x : Except Fault α} (h : FaultsIn among x post) {e : Fault}
    (hx : x = .error e) : e.SiteIn among := by
  rw [hx] at h
  exact h

end FaultsIn

/-! ## Constants -/

theorem Expr.SitesIn.of_visited : ∀ {e : Expr}, e.SitesIn among → ∀ n ∈ e.visited, among n.site
  | .int .., h | .str .., h | .variable .., h | .label .., h =>
      List.forall_mem_singleton.mpr h
  | .index .., h => List.forall_mem_singleton.mpr h.1
  | .cast .., h | .unary .., h =>
      List.forall_mem_append.mpr ⟨SitesIn.of_visited h.2, List.forall_mem_singleton.mpr h.1⟩
  | .binary .., h => by
      have hoperands := List.forall_mem_append.mpr
        ⟨SitesIn.of_visited h.2.1, SitesIn.of_visited h.2.2⟩
      exact List.forall_mem_append.mpr ⟨hoperands, List.forall_mem_singleton.mpr h.1⟩

/-- A constant without a value is so because of one of its parts. -/
theorem Constant.evaluate_sited {env : Constant.Env} (henv : env.Located) {e : Expr}
    (h : e.SitesIn among) : FaultsIn among (Constant.evaluate env e) fun _ => True := by
  cases hrun : Constant.evaluate env e with
  | ok v => trivial
  | error fault =>
      obtain ⟨n, hn, hfault⟩ := Constant.exists_fault hrun
      exact Fault.siteIn_of_some (Constant.site?_of_fault? henv hfault) (h.of_visited n hn)

/-! ## Binding label uses

A use without a label is missed at its own place. -/

mutual

/-- One case for each kind of expression. -/
theorem Expr.bind_sited (find : LabelFinder) : ∀ e : Expr, e.SitesIn among →
    FaultsIn among (Expr.bind find e) (Expr.SitesIn among)
  | .int _ _, h | .str _ _, h | .variable _ _, h => h
  | .label use i, h => by
      rw [Expr.bind]
      split
      · exact h
      · exact Fault.siteIn_of_some rfl h
  | .cast operand i, h => by
      rw [Expr.bind]
      exact (Expr.bind_sited find operand h.2).bind fun e he => ⟨h.1, he⟩
  | .unary op operand i, h => by
      rw [Expr.bind]
      exact (Expr.bind_sited find operand h.2).bind fun e he => ⟨h.1, he⟩
  | .binary op left right i, h => by
      rw [Expr.bind]
      refine (Expr.bind_sited find left h.2.1).bind fun e he => ?_
      exact (Expr.bind_sited find right h.2.2).bind fun f hf => ⟨h.1, he, hf⟩
  | .index base indices i, h => by
      rw [Expr.bind]
      refine (Expr.bind_sited find base h.2.1).bind fun e he => ?_
      exact (Expr.bindList_sited find indices h.2.2).bind fun es hes => ⟨h.1, he, hes⟩

theorem Expr.bindList_sited (find : LabelFinder) : ∀ es : List Expr, Expr.AllSitesIn among es →
    FaultsIn among (Expr.bindList find es) (Expr.AllSitesIn among)
  | [], _ => trivial
  | e :: es, h => by
      rw [Expr.bindList]
      refine (Expr.bind_sited find e h.1).bind fun x hx => ?_
      exact (Expr.bindList_sited find es h.2).bind fun xs hxs => ⟨hx, hxs⟩

end

mutual

/-- A statement has the places of its action. -/
theorem Stmt.bind_sited (find : LabelFinder) : ∀ s : Stmt, s.SitesIn among →
    FaultsIn among (Stmt.bind find s) (Stmt.SitesIn among)
  | .mk labels action site, h => by
      rw [Stmt.bind]
      exact (Action.bind_sited find action h).bind fun a ha => ha

theorem Stmt.bindList_sited (find : LabelFinder) : ∀ ss : List Stmt, Stmt.ListSitesIn among ss →
    FaultsIn among (Stmt.bindList find ss) (Stmt.ListSitesIn among)
  | [], _ => trivial
  | s :: ss, h => by
      rw [Stmt.bindList]
      refine (Stmt.bind_sited find s h.1).bind fun x hx => ?_
      exact (Stmt.bindList_sited find ss h.2).bind fun xs hxs => ⟨hx, hxs⟩

theorem Stmt.bindOption_sited (find : LabelFinder) : ∀ s : Option Stmt,
    Stmt.OptionSitesIn among s → FaultsIn among (Stmt.bindOption find s) (Stmt.OptionSitesIn among)
  | none, _ => trivial
  | some s, h => by
      rw [Stmt.bindOption]
      exact (Stmt.bind_sited find s h).bind fun x hx => hx

theorem Action.bind_sited (find : LabelFinder) : ∀ a : Action, a.SitesIn among →
    FaultsIn among (Action.bind find a) (Action.SitesIn among)
  | .nothing, h | .place _, h | .reserve _, h => h
  | .evaluate value, h | .goto value, h => by
      rw [Action.bind]
      exact (Expr.bind_sited find value h).bind fun e he => he
  | .define v value, h => by
      rw [Action.bind]
      exact (Expr.bind_sited find value h.2).bind fun e he => ⟨h.1, he⟩
  | .assign target value, h => by
      rw [Action.bind]
      refine (Expr.bind_sited find target h.1).bind fun e he => ?_
      exact (Expr.bind_sited find value h.2).bind fun f hf => ⟨he, hf⟩
  | .block body, h => by
      rw [Action.bind]
      exact (Stmt.bindList_sited find body h).bind fun ss hss => hss
  | .branch condition taken otherwise, h => by
      rw [Action.bind]
      refine (Expr.bind_sited find condition h.1).bind fun e he => ?_
      refine (Stmt.bind_sited find taken h.2.1).bind fun s hs => ?_
      exact (Stmt.bindOption_sited find otherwise h.2.2).bind fun o ho => ⟨he, hs, ho⟩
  | .loop condition body _, h => by
      rw [Action.bind]
      refine (Expr.bind_sited find condition h.1).bind fun e he => ?_
      exact (Stmt.bind_sited find body h.2).bind fun s hs => ⟨he, hs⟩
  | .words values, h => by
      rw [Action.bind]
      exact (Expr.bindList_sited find values h).bind fun es hes => hes

end

end ByteJump
