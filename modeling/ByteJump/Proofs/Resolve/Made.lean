import ByteJump.Proofs.Resolve.Names
import ByteJump.Proofs.Results

set_option autoImplicit false

/-!
# Where statements are made

Each statement of a resolved file was made from a part of the tree of the file, in a state where
exactly the variables in scope were visible.  All declarations of the file belong to one unit.

The statement about a command is `CommandMakesIts`: for every statement inside the resolved command
there is a part of the tree and a state, such that resolving the part in the state makes the
statement, and the variables in scope are the visible ones of that state.  The definitions with
`MakesIts` in their names are the induction hypotheses for a statement, for a list, and for a part
that may be absent; `block_made`, `branch_made` and `loop_made` are the cases with statements
inside, and all other commands are flat.
-/

namespace ByteJump

/-! ## Binding

Binding the label uses comes behind the walk.  It changes no declaration, so the places of the
statements are the same before and after it. -/

/-- A statement was made by binding the uses of labels in one among others, in the same scope. -/
def BoundIn (find : LabelFinder) (places : List (List Variable × Stmt))
    (x : List Variable × Stmt) : Prop :=
  ∃ st₀, (x.1, st₀) ∈ places ∧ Stmt.bind find st₀ = .ok x.2

/-- A place among some of the places is one among all of them. -/
theorem BoundIn.mono {find : LabelFinder} {places places' : List (List Variable × Stmt)}
    {x : List Variable × Stmt} (h : BoundIn find places x)
    (hsub : ∀ y ∈ places, y ∈ places') : BoundIn find places' x := by
  obtain ⟨st₀, hmem, hbind⟩ := h
  exact ⟨st₀, hsub _ hmem, hbind⟩

theorem Binds.of_ok {α : Type} {x : Except Fault α} {post : α → Prop} {a : α} (h : Binds x post)
    (hx : x = .ok a) : post a := by
  rw [hx] at h
  exact h

mutual

/-- A statement that is bound stands where it stood. -/
theorem Stmt.bind_places (find : LabelFinder) : ∀ (s : Stmt) {bound : Stmt} (around : List Variable),
    Stmt.bind find s = .ok bound → ∀ x ∈ bound.places around, BoundIn find (s.places around) x
  | .mk labels action site, bound, around, h, x, hx => by
      have hbind := h
      rw [Stmt.bind] at h
      obtain ⟨a, ha, hbound⟩ := Except.bind_eq_ok.mp h
      cases hbound
      rcases List.mem_cons.mp hx with rfl | hx
      · exact ⟨_, List.mem_cons_self, hbind⟩
      · exact (Action.bind_places find action around ha x hx).mono fun y hy =>
          List.mem_cons_of_mem _ hy

theorem Stmt.bindList_places (find : LabelFinder) : ∀ (ss : List Stmt) {bound : List Stmt}
    (around : List Variable), Stmt.bindList find ss = .ok bound →
      ∀ x ∈ Stmt.listPlaces around bound, BoundIn find (Stmt.listPlaces around ss) x
  | [], bound, around, h, x, hx => by
      cases h
      cases hx
  | s :: ss, bound, around, h, x, hx => by
      rw [Stmt.bindList] at h
      obtain ⟨s', hs, h⟩ := Except.bind_eq_ok.mp h
      obtain ⟨ss', hss, h⟩ := Except.bind_eq_ok.mp h
      cases h
      rcases List.mem_append.mp hx with hx | hx
      · exact (Stmt.bind_places find s around hs x hx).mono fun y hy => List.mem_append_left _ hy
      · rw [((Stmt.bind_alike find s).of_ok hs).scope] at hx
        exact (Stmt.bindList_places find ss _ hss x hx).mono fun y hy =>
          List.mem_append_right _ hy

theorem Stmt.bindOption_places (find : LabelFinder) : ∀ (s : Option Stmt) {bound : Option Stmt}
    (around : List Variable), Stmt.bindOption find s = .ok bound →
      ∀ x ∈ Stmt.optionPlaces around bound, BoundIn find (Stmt.optionPlaces around s) x
  | none, bound, around, h, x, hx => by
      cases h
      cases hx
  | some s, bound, around, h, x, hx => by
      rw [Stmt.bindOption] at h
      obtain ⟨s', hs, h⟩ := Except.bind_eq_ok.mp h
      cases h
      exact Stmt.bind_places find s around hs x hx

/-- One case for each action; statements inside are bound in place. -/
theorem Action.bind_places (find : LabelFinder) : ∀ (a : Action) {bound : Action}
    (around : List Variable), Action.bind find a = .ok bound →
      ∀ x ∈ bound.places around, BoundIn find (a.places around) x
  | .nothing, bound, around, h, x, hx | .place _, bound, around, h, x, hx
  | .reserve _, bound, around, h, x, hx => by
      cases h
      cases hx
  | .evaluate _, bound, around, h, x, hx | .goto _, bound, around, h, x, hx
  | .define _ _, bound, around, h, x, hx | .words _, bound, around, h, x, hx => by
      rw [Action.bind] at h
      obtain ⟨e, -, h⟩ := Except.bind_eq_ok.mp h
      cases h
      cases hx
  | .assign _ _, bound, around, h, x, hx => by
      rw [Action.bind] at h
      obtain ⟨e, -, h⟩ := Except.bind_eq_ok.mp h
      obtain ⟨e', -, h⟩ := Except.bind_eq_ok.mp h
      cases h
      cases hx
  | .block body, bound, around, h, x, hx => by
      rw [Action.bind] at h
      obtain ⟨ss, hss, h⟩ := Except.bind_eq_ok.mp h
      cases h
      exact Stmt.bindList_places find body around hss x hx
  | .branch _ taken otherwise, bound, around, h, x, hx => by
      rw [Action.bind] at h
      obtain ⟨e, -, h⟩ := Except.bind_eq_ok.mp h
      obtain ⟨s, hs, h⟩ := Except.bind_eq_ok.mp h
      obtain ⟨o, ho, h⟩ := Except.bind_eq_ok.mp h
      cases h
      rcases List.mem_append.mp hx with hx | hx
      · exact (Stmt.bind_places find taken around hs x hx).mono fun y hy =>
          List.mem_append_left _ hy
      · rw [((Stmt.bind_alike find taken).of_ok hs).scope] at hx
        exact (Stmt.bindOption_places find otherwise _ ho x hx).mono fun y hy =>
          List.mem_append_right _ hy
  | .loop _ body _, bound, around, h, x, hx => by
      rw [Action.bind] at h
      obtain ⟨e, -, h⟩ := Except.bind_eq_ok.mp h
      obtain ⟨s, hs, h⟩ := Except.bind_eq_ok.mp h
      cases h
      exact Stmt.bind_places find body around hs x hx

end

namespace Resolve

variable {c : Context}

/-! ## Statements -/

/-- A computation that only looks leaves the state and the imports as they are. -/
theorem Looks.of_ok {α : Type} {x : Resolving α} {post : α → Prop} {s t : State} {I J : Imports}
    {a : α} (h : Looks x post s) (hrun : x s I = .ok (a, t) J) : t = s ∧ J = I := by
  rcases h with ⟨b, -, hx⟩ | ⟨e, -, hx⟩
  · rw [hx] at hrun
    cases hrun
    exact ⟨rfl, rfl⟩
  · rw [hx] at hrun
    cases hrun

/-- The places of a first statement that may be absent, and then those of the rest. -/
theorem listPlaces_toList_append (first : Option Stmt) (rest : List Stmt)
    (around : List Variable) : Stmt.listPlaces around (first.toList ++ rest) =
      Stmt.optionPlaces around first ++ Stmt.listPlaces (Stmt.optionScope around first) rest := by
  cases first <;> rfl

/-- A statement stands in front of the statements inside it. -/
theorem places_eq (around : List Variable) (st : Stmt) :
    st.places around = (around, st) :: st.action.places around := by
  cases st
  rfl

/-- What a statement made of a command does. -/
theorem action_orNothing (stx : Syntax.Stmt) (labels : List Label) (a : Option Action)
    (site : Location) : (orNothing c stx (finish labels a site)).action = a.getD .nothing := by
  cases a with
  | some a => rfl
  | none =>
      unfold finish
      dsimp only
      split <;> rfl

theorem optionPlaces_orNothing (stx : Syntax.Stmt) (r : Option Stmt) (around : List Variable) :
    ∀ x ∈ Stmt.optionPlaces around r, x ∈ (orNothing c stx r).places around := by
  intro x hx
  cases r with
  | some st => exact hx
  | none => cases hx

/-! ## Commands with statements in them -/

/-- Each statement in what the tree makes was made while the tree was resolved. -/
def MakesIts (c : Context) (stx : Syntax.Stmt) : Prop :=
  ∀ ⦃depth : Nat⦄ ⦃s t : State⦄ ⦃I J : Imports⦄ ⦃r : Option Stmt⦄, s.scopes.Ok → I.Named →
    stmt c depth stx s I = .ok (r, t) J →
    ∀ x ∈ (orNothing c stx r).places s.scopes.visible, Made c depth [stx] s I x.1 x.2

/-- The same of trees one behind the other. -/
def ListMakesIts (c : Context) (ss : List Syntax.Stmt) : Prop :=
  ∀ ⦃depth : Nat⦄ ⦃s t : State⦄ ⦃I J : Imports⦄ ⦃r : List Stmt⦄, s.scopes.Ok → I.Named →
    stmts c depth ss s I = .ok (r, t) J →
    ∀ x ∈ Stmt.listPlaces s.scopes.visible r, Made c depth ss s I x.1 x.2

/-- The same of a branch that may be absent. -/
def OptionMakesIts (c : Context) (stx : Option Syntax.Stmt) : Prop :=
  ∀ ⦃depth : Nat⦄ ⦃s t : State⦄ ⦃I J : Imports⦄ ⦃r : Option Stmt⦄, s.scopes.Ok → I.Named →
    optionalBranch c depth stx s I = .ok (r, t) J →
    ∀ x ∈ Stmt.optionPlaces s.scopes.visible r,
      ∃ other, stx = some other ∧ Made c depth [other] s I x.1 x.2

/-- The same of a command that stands in a statement, behind the labels of the statement. -/
def CommandMakesIts (c : Context) (command : Syntax.Command) : Prop :=
  ∀ ⦃depth : Nat⦄ ⦃site : Location⦄ ⦃decls : List Syntax.LabelDecl⦄ ⦃span : Span⦄
    ⦃s₀ u s t : State⦄ ⦃I₀ K I J : Imports⦄ ⦃ls more : List Label⦄ ⦃a : Action⦄, s.scopes.Ok →
    I.Named → action c depth site command s I = .ok (some a, t) J →
    declareLabels c decls s₀ I₀ = .ok (ls, u) K →
    declareLabels c (siteLabels command) u K = .ok (more, s) I →
    ∀ x ∈ a.places s.scopes.visible, Made c depth [.mk decls command span] s₀ I₀ x.1 x.2

section Commands

variable {depth : Nat} {site : Location} {decls : List Syntax.LabelDecl} {span : Span}
  {s₀ s t : State} {I₀ I J : Imports} {ls : List Label} {a : Action}

/-- The statements of a block are made in the inner scope, in order. -/
theorem block_made {body : List Syntax.Stmt} (hbody : ListMakesIts c body) (hs : s.scopes.Ok)
    (hI : I.Named) (hrun : action c depth site (.block body) s I = .ok (some a, t) J)
    (hlabels : declareLabels c decls s₀ I₀ = .ok (ls, s) I) :
    ∀ x ∈ a.places s.scopes.visible, Made c depth [.mk decls (.block body) span] s₀ I₀ x.1 x.2 := by
  intro x hx
  rw [action] at hrun
  obtain ⟨_, v, L, hpush, hrun⟩ := ok_bind hrun
  cases hpush
  obtain ⟨ss, w, M, hinside, hrun⟩ := ok_bind hrun
  obtain ⟨_, w', M', hpop, hrun⟩ := ok_bind hrun
  cases hrun
  rw [← Scopes.visible_push hs] at hx
  exact (hbody (Scopes.ok_push hs) hI hinside x hx).mono fun h => .block hlabels h

/-- The second branch is resolved behind the first one, where more may be visible. -/
theorem branch_made (hdelivers : c.DeliversNamed) {test : Syntax.Expr} {taken : Syntax.Stmt}
    {otherwise : Option Syntax.Stmt} (htaken : MakesIts c taken)
    (hother : OptionMakesIts c otherwise) (hs : s.scopes.Ok) (hI : I.Named)
    (hrun : action c depth site (.branch test taken otherwise) s I = .ok (some a, t) J)
    (hlabels : declareLabels c decls s₀ I₀ = .ok (ls, s) I) :
    ∀ x ∈ a.places s.scopes.visible,
      Made c depth [.mk decls (.branch test taken otherwise) span] s₀ I₀ x.1 x.2 := by
  intro x hx
  rw [action] at hrun
  obtain ⟨e, v, L, htest, hrun⟩ := ok_bind hrun
  obtain ⟨r, w, M, hfirst, hrun⟩ := ok_bind hrun
  obtain ⟨o, w', M', hsecond, hrun⟩ := ok_bind hrun
  cases hrun
  obtain ⟨rfl, rfl⟩ := (condition_looks c test _).of_ok htest
  rw [Action.places] at hx
  rcases List.mem_append.mp hx with hx | hx
  · exact (htaken hs hI hfirst x hx).mono fun h => .taken hlabels htest h
  · have hnames := (stmt_names hdelivers (depth + 1) taken hs hI).of_ok hfirst
    rw [orNothing_scope, ← show w.scopes.visible = _ from hnames.visible] at hx
    obtain ⟨other, rfl, h⟩ := hother hnames.grown.ok hnames.imports hsecond x hx
    exact h.mono fun h => .otherwise hlabels htest hfirst h

/-- The condition of a loop is resolved first, in the scope around the loop. -/
theorem loop_made {test : Syntax.Expr} {body : Syntax.Stmt} {bodyFirst : Bool}
    (hbody : MakesIts c body) (hs : s.scopes.Ok) (hI : I.Named)
    (hrun : action c depth site (.loop test body bodyFirst) s I = .ok (some a, t) J)
    (hlabels : declareLabels c decls s₀ I₀ = .ok (ls, s) I) :
    ∀ x ∈ a.places s.scopes.visible,
      Made c depth [.mk decls (.loop test body bodyFirst) span] s₀ I₀ x.1 x.2 := by
  intro x hx
  rw [action] at hrun
  obtain ⟨e, v, L, htest, hrun⟩ := ok_bind hrun
  obtain ⟨r, w, M, hinside, hrun⟩ := ok_bind hrun
  cases hrun
  obtain ⟨rfl, rfl⟩ := (condition_looks c test _).of_ok htest
  exact (hbody hs hI hinside x hx).mono fun h => .body hlabels htest h

/-- No statement stands in the command. -/
def isFlat : Syntax.Command → Bool
  | .block _ | .branch .. | .loop .. => false
  | _ => true

/-- A command without statements in it makes an action without statements in it. -/
theorem places_of_isFlat {command : Syntax.Command} (hflat : isFlat command = true)
    (hrun : action c depth site command s I = .ok (some a, t) J) (around : List Variable) :
    a.places around = [] := by
  rw [action.eq_def] at hrun
  cases command with
  | block _ | branch _ _ _ | loop _ _ _ => cases hflat
  | importFile _ | evaluate _ | goto _ _ | words _ =>
      obtain ⟨e, v, L, -, hrun⟩ := ok_bind hrun
      cases hrun
      rfl
  | define _ _ =>
      obtain ⟨e, v, L, -, hrun⟩ := ok_bind hrun
      obtain ⟨id, w, M, -, hrun⟩ := ok_bind hrun
      cases hrun
      rfl
  | defineArray _ _ element =>
      obtain ⟨n, v, L, -, hrun⟩ := ok_bind hrun
      cases element <;>
      · obtain ⟨type, w, M, -, hrun⟩ := ok_bind hrun
        obtain ⟨id, w', M', -, hrun⟩ := ok_bind hrun
        cases hrun
        rfl
  | assign _ _ =>
      obtain ⟨e, v, L, -, hrun⟩ := ok_bind hrun
      obtain ⟨e', v', L', -, hrun⟩ := ok_bind hrun
      cases hrun
      rfl
  | struct _ _ | pragma _ _ =>
      obtain ⟨e, v, L, -, hrun⟩ := ok_bind hrun
      cases hrun

end Commands

/-! ## Statements -/

mutual

theorem stmt_made (hdelivers : c.DeliversNamed) : ∀ stx : Syntax.Stmt, MakesIts c stx
  | .mk decls command span => by
      intro depth s t I J r hs hI hrun x hx
      have hstmt := hrun
      rw [stmt] at hrun
      obtain ⟨ls, u, K, hlabels, hrun⟩ := ok_bind hrun
      obtain ⟨more, v, L, hmore, hrun⟩ := ok_bind hrun
      obtain ⟨a, w, M, haction, hrun⟩ := ok_bind hrun
      cases hrun
      rw [places_eq] at hx
      rcases List.mem_cons.mp hx with rfl | hx
      · exact ⟨depth, _, s, I, _, _, _, .here, rfl, hstmt, rfl⟩
      · rw [action_orNothing] at hx
        have hls := (declareLabels_names decls hs hI).of_ok hlabels
        have hmore' := (declareLabels_names (siteLabels command) hls.grown.ok hls.imports).of_ok hmore
        rw [← show u.scopes.visible = s.scopes.visible from hls.visible,
          ← show v.scopes.visible = u.scopes.visible from hmore'.visible] at hx
        cases a with
        | none => cases hx
        | some a =>
            exact action_made hdelivers command hmore'.grown.ok hmore'.imports haction hlabels hmore
              x hx

theorem stmts_made (hdelivers : c.DeliversNamed) : ∀ ss : List Syntax.Stmt, ListMakesIts c ss
  | [] => by
      intro depth s t I J r hs hI hrun x hx
      rw [stmts] at hrun
      cases hrun
      cases hx
  | stx :: ss => by
      intro depth s t I J r hs hI hrun x hx
      rw [stmts] at hrun
      obtain ⟨first, u, K, hfirst, hrun⟩ := ok_bind hrun
      obtain ⟨rest, v, L, hrest, hrun⟩ := ok_bind hrun
      cases hrun
      rw [listPlaces_toList_append] at hx
      rcases List.mem_append.mp hx with hx | hx
      · have hx := optionPlaces_orNothing (c := c) stx first _ x hx
        exact (stmt_made hdelivers stx hs hI hfirst x hx).mono fun h => h.append ss
      · have hnames := (stmt_names hdelivers depth stx hs hI).of_ok hfirst
        rw [← show u.scopes.visible = _ from hnames.visible] at hx
        exact (stmts_made hdelivers ss hnames.grown.ok hnames.imports hrest x hx).mono fun h =>
          .behind hfirst h

theorem optionalBranch_made (hdelivers : c.DeliversNamed) :
    ∀ stx : Option Syntax.Stmt, OptionMakesIts c stx
  | none => by
      intro depth s t I J r hs hI hrun x hx
      rw [optionalBranch] at hrun
      cases hrun
      cases hx
  | some stx => by
      intro depth s t I J r hs hI hrun x hx
      rw [optionalBranch] at hrun
      obtain ⟨resolved, u, K, hstmt, hrun⟩ := ok_bind hrun
      cases hrun
      exact ⟨stx, rfl, stmt_made hdelivers stx hs hI hstmt x hx⟩

/-- What stands inside a command is made while a statement of the command is resolved. -/
theorem action_made (hdelivers : c.DeliversNamed) :
    ∀ command : Syntax.Command, CommandMakesIts c command
  | .block body => by
      intro depth site decls span s₀ u s t I₀ K I J ls more a hs hI hrun hlabels hmore
      cases hmore
      exact block_made (stmts_made hdelivers body) hs hI hrun hlabels
  | .branch test taken otherwise => by
      intro depth site decls span s₀ u s t I₀ K I J ls more a hs hI hrun hlabels hmore
      cases hmore
      exact branch_made hdelivers (stmt_made hdelivers taken)
        (optionalBranch_made hdelivers otherwise) hs hI hrun hlabels
  | .loop test body bodyFirst => by
      intro depth site decls span s₀ u s t I₀ K I J ls more a hs hI hrun hlabels hmore
      cases hmore
      exact loop_made (stmt_made hdelivers body) hs hI hrun hlabels
  | .importFile _ | .evaluate _ | .goto _ _ | .define _ _ | .defineArray _ _ _ | .assign _ _
  | .struct _ _ | .words _ | .pragma _ _ => by
      intro depth site decls span s₀ u s t I₀ K I J ls more a _ _ hrun _ _ x hx
      rw [places_of_isFlat rfl hrun] at hx
      cases hx

end

end Resolve

end ByteJump
