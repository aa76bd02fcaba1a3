import ByteJump.Proofs.Proper
import ByteJump.Resolve.Label

set_option autoImplicit false

/-!
# Binding label uses

Binding the label uses of a file gives each of them a label that the finder knows, changes nothing
else that counts for a proper program, and fails only for a use that has no label.

`Fills` relates a part of the program to the part with its labels bound: proper before and proper
after, with the same declarations, labels and files, and with labels that the finder knows.  It is
a structure for each kind of part, and the recursion is that of the binding.  What the finder
knows is a parameter here; in a file it is the table of its scopes.
-/

namespace ByteJump

/-- The result is a value with `post`, or the fault of a label that has no meaning. -/
def Binds {α : Type} (x : Except Fault α) (post : α → Prop) : Prop :=
  match x with
  | .ok a => post a
  | .error e => ∃ name site, e = .unresolvedLabel name site

section Binds

variable {α β : Type} {post : α → Prop} {mid : β → Prop}

/-- The fault of a part is a fault of the whole. -/
theorem Binds.bind {x : Except Fault β} {f : β → Except Fault α} (h : Binds x mid)
    (hf : ∀ b, mid b → Binds (f b) post) : Binds (x >>= f) post := by
  cases x with
  | ok b => exact hf b h
  | error e => exact h

end Binds

/-- The label is one that the finder knows. -/
def LabelFinder.Finds (find : LabelFinder) (label : Label) : Prop :=
  ∃ scope name, find scope name = some label

/-! ## Expressions -/

/-- What binding does to an expression. -/
structure Expr.Fills (find : LabelFinder) (e bound : Expr) : Prop where
  type : bound.type = e.type
  proper : ∀ vars, e.Proper vars → bound.Proper vars
  labels : bound.LabelsIn find.Finds

/-- What binding does to several expressions. -/
structure Expr.AllFills (find : LabelFinder) (es bound : List Expr) : Prop where
  proper : ∀ vars, Expr.AllProper vars es → Expr.AllProper vars bound
  labels : Expr.AllLabelsIn find.Finds bound

mutual

/-- One case for each kind of expression. -/
theorem Expr.bind_fills (find : LabelFinder) : ∀ e, Binds (Expr.bind find e) (Expr.Fills find e)
  | .int .. | .str .. | .variable .. => ⟨rfl, fun _ h => h, trivial⟩
  | .label use i => by
      rw [Expr.bind]
      split
      · rename_i label hlabel
        exact ⟨rfl, fun _ _ => trivial, label, rfl, use.scope, use.name, hlabel⟩
      · exact ⟨_, _, rfl⟩
  | .cast operand i => by
      rw [Expr.bind]
      exact (Expr.bind_fills find operand).bind fun e he => ⟨rfl, he.proper, he.labels⟩
  | .unary op operand i => by
      rw [Expr.bind]
      refine (Expr.bind_fills find operand).bind fun e he => ⟨rfl, fun vars h => ?_, he.labels⟩
      exact ⟨by rw [he.type]; exact h.1, he.proper vars h.2⟩
  | .binary op left right i => by
      rw [Expr.bind]
      refine (Expr.bind_fills find left).bind fun e he => ?_
      refine (Expr.bind_fills find right).bind fun f hf => ?_
      exact ⟨rfl, fun vars h => ⟨he.proper vars h.1, hf.proper vars h.2⟩, he.labels, hf.labels⟩
  | .index base indices i => by
      rw [Expr.bind]
      refine (Expr.bind_fills find base).bind fun e he => ?_
      refine (Expr.bindList_fills find indices).bind fun es hes => ?_
      exact ⟨rfl, fun vars h => ⟨he.proper vars h.1, hes.proper vars h.2⟩, he.labels, hes.labels⟩

theorem Expr.bindList_fills (find : LabelFinder) :
    ∀ es, Binds (Expr.bindList find es) (Expr.AllFills find es)
  | [] => ⟨fun _ h => h, trivial⟩
  | e :: es => by
      rw [Expr.bindList]
      refine (Expr.bind_fills find e).bind fun x hx => ?_
      refine (Expr.bindList_fills find es).bind fun xs hxs => ?_
      exact ⟨fun vars h => ⟨hx.proper vars h.1, hxs.proper vars h.2⟩, hx.labels, hxs.labels⟩

end

/-! ## Statements

Binding goes into blocks, conditions and loops, and stops at files, which were bound when they
were resolved. -/

/-- What binding does to a statement. -/
structure Stmt.Fills (find : LabelFinder) (s bound : Stmt) : Prop where
  declared : bound.declared = s.declared
  ownLabels : bound.ownLabels = s.ownLabels
  files : bound.files = s.files
  proper : ∀ known, s.Proper known → bound.Proper known
  labels : bound.LabelsIn find.Finds

/-- What binding does to several statements. -/
structure Stmt.ListFills (find : LabelFinder) (ss bound : List Stmt) : Prop where
  declared : Stmt.listDeclared bound = Stmt.listDeclared ss
  ownLabels : Stmt.listLabels bound = Stmt.listLabels ss
  files : Stmt.listFiles bound = Stmt.listFiles ss
  proper : ∀ known, Stmt.ListProper known ss → Stmt.ListProper known bound
  labels : Stmt.ListLabelsIn find.Finds bound

/-- What binding does to a statement that may be absent. -/
structure Stmt.OptionFills (find : LabelFinder) (s bound : Option Stmt) : Prop where
  declared : Stmt.optionDeclared bound = Stmt.optionDeclared s
  ownLabels : Stmt.optionLabels bound = Stmt.optionLabels s
  files : Stmt.optionFiles bound = Stmt.optionFiles s
  proper : ∀ known, Stmt.OptionProper known s → Stmt.OptionProper known bound
  labels : Stmt.OptionLabelsIn find.Finds bound

/-- What binding does to an action. -/
structure Action.Fills (find : LabelFinder) (a bound : Action) : Prop where
  declared : bound.declared = a.declared
  ownLabels : bound.ownLabels = a.ownLabels
  files : bound.files = a.files
  proper : ∀ known, a.Proper known → bound.Proper known
  labels : bound.LabelsIn find.Finds

mutual

/-- A statement keeps its labels, and its action is bound. -/
theorem Stmt.bind_fills (find : LabelFinder) : ∀ s, Binds (Stmt.bind find s) (Stmt.Fills find s)
  | .mk labels action site => by
      rw [Stmt.bind]
      refine (Action.bind_fills find action).bind fun a ha => ?_
      refine ⟨ha.declared, ?_, ha.files, ha.proper, ha.labels⟩
      rw [Stmt.ownLabels, Stmt.ownLabels, ha.ownLabels]

theorem Stmt.bindList_fills (find : LabelFinder) :
    ∀ ss, Binds (Stmt.bindList find ss) (Stmt.ListFills find ss)
  | [] => ⟨rfl, rfl, rfl, fun _ h => h, trivial⟩
  | s :: ss => by
      rw [Stmt.bindList]
      refine (Stmt.bind_fills find s).bind fun x hx => ?_
      refine (Stmt.bindList_fills find ss).bind fun xs hxs => ⟨?_, ?_, ?_, fun known h => ?_, ?_⟩
      · rw [Stmt.listDeclared, Stmt.listDeclared, hx.declared, hxs.declared]
      · rw [Stmt.listLabels, Stmt.listLabels, hx.ownLabels, hxs.ownLabels]
      · rw [Stmt.listFiles, Stmt.listFiles, hx.files, hxs.files]
      · refine ⟨hx.proper known h.1, ?_⟩
        rw [hx.declared]
        exact hxs.proper _ h.2
      · exact ⟨hx.labels, hxs.labels⟩

theorem Stmt.bindOption_fills (find : LabelFinder) :
    ∀ s, Binds (Stmt.bindOption find s) (Stmt.OptionFills find s)
  | none => ⟨rfl, rfl, rfl, fun _ h => h, trivial⟩
  | some s => by
      rw [Stmt.bindOption]
      exact (Stmt.bind_fills find s).bind fun x hx =>
        ⟨hx.declared, hx.ownLabels, hx.files, hx.proper, hx.labels⟩

/-- One case for each action. -/
theorem Action.bind_fills (find : LabelFinder) :
    ∀ a, Binds (Action.bind find a) (Action.Fills find a)
  | .nothing | .place _ | .reserve _ => ⟨rfl, rfl, rfl, fun _ h => h, trivial⟩
  | .evaluate value | .goto value | .define v value => by
      rw [Action.bind]
      exact (Expr.bind_fills find value).bind fun e he =>
        ⟨rfl, rfl, rfl, fun _ h => he.proper _ h, he.labels⟩
  | .assign target value => by
      rw [Action.bind]
      refine (Expr.bind_fills find target).bind fun e he => ?_
      refine (Expr.bind_fills find value).bind fun f hf => ?_
      exact ⟨rfl, rfl, rfl, fun _ h => ⟨he.proper _ h.1, hf.proper _ h.2⟩, he.labels, hf.labels⟩
  | .block body => by
      rw [Action.bind]
      exact (Stmt.bindList_fills find body).bind fun ss hss =>
        ⟨hss.declared, hss.ownLabels, hss.files, hss.proper, hss.labels⟩
  | .branch condition taken otherwise => by
      rw [Action.bind]
      refine (Expr.bind_fills find condition).bind fun e he => ?_
      refine (Stmt.bind_fills find taken).bind fun s hs => ?_
      refine (Stmt.bindOption_fills find otherwise).bind fun o ho =>
        ⟨?_, ?_, ?_, fun known h => ?_, he.labels, hs.labels, ho.labels⟩
      · rw [Action.declared, Action.declared, hs.declared, ho.declared]
      · rw [Action.ownLabels, Action.ownLabels, hs.ownLabels, ho.ownLabels]
      · rw [Action.files, Action.files, hs.files, ho.files]
      · refine ⟨⟨by rw [he.type]; exact h.1.1, he.proper _ h.1.2⟩, hs.proper known h.2.1, ?_⟩
        rw [hs.declared]
        exact ho.proper _ h.2.2
  | .loop condition body bodyFirst => by
      rw [Action.bind]
      refine (Expr.bind_fills find condition).bind fun e he => ?_
      refine (Stmt.bind_fills find body).bind fun s hs => ?_
      refine ⟨hs.declared, hs.ownLabels, hs.files, fun known h => ?_, he.labels, hs.labels⟩
      exact ⟨⟨by rw [he.type]; exact h.1.1, he.proper _ h.1.2⟩, hs.proper known h.2⟩
  | .words values => by
      rw [Action.bind]
      exact (Expr.bindList_fills find values).bind fun es hes =>
        ⟨rfl, rfl, rfl, fun _ h => hes.proper _ h, hes.labels⟩

end

end ByteJump
