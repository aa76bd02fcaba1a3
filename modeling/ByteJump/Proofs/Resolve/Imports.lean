import ByteJump.Proofs.ImportGraph
import ByteJump.Proofs.Resolve.Binding
import ByteJump.Proofs.Resolve.Outcome

set_option autoImplicit false

/-!
# What imports decide

A file is resolved only if every one of its import statements gets a program, and a fault that
tells of nesting comes from one of them.  Both hold of statements in any position, also inside
branches that never run.

`Tells c names x` is read in two directions.  If `x` ends with a value, each of its import
statements, `names`, gets a program, whatever stands in between.  If it ends with a fault about
nesting, this fault comes from one of them.  It is stated where nothing is kept and importing
keeps nothing, `Context.Forgets`, so that each import statement resolves its file.  The names are
collected in the order of the text, so for a file they are the imports of its tree. -/

namespace ByteJump.Resolve

variable {α β : Type} {c : Context}

/-- An import statement with the name gets a program. -/
def Context.Gives (c : Context) (name : String) : Prop :=
  ∃ path program, c.source.target c.searchPaths name = some path ∧
    (c.active.any fun file => file.same (c.source.identity path)) = false ∧
    c.importFile (c.source.identity path) [] = .ok program []

/-- An import statement with the name faults: the file is being resolved, or resolving it
faults. -/
def Context.Raises (c : Context) (name : String) (e : Fault) : Prop :=
  ∃ path, c.source.target c.searchPaths name = some path ∧
    (((c.active.any fun file => file.same (c.source.identity path)) = true ∧
        ∃ site, e = .importCycle (c.active ++ [c.source.identity path]) site) ∨
      (c.active.any fun file => file.same (c.source.identity path)) = false ∧
        c.importFile (c.source.identity path) [] = .error e [])

/-- Importing a file keeps nothing. -/
def Context.Forgets (c : Context) : Prop :=
  ∀ path, match c.importFile path [] with
    | .ok _ I => I = []
    | .error _ I => I = []

/-- The computation comes by import statements with the names: it keeps nothing, it succeeds only
if all of them do, and a fault of nesting is from one of them. -/
def Tells (c : Context) (names : List String) (x : Resolving α) : Prop :=
  ∀ s, Ends x (fun _ _ I => I = [] ∧ ∀ name ∈ names, c.Gives name)
    (fun e I => I = [] ∧ (e.isNesting = true → ∃ name ∈ names, c.Raises name e)) s []

/-! ## Rules -/

/-- The imports of the second part come behind those of the first. -/
theorem Tells.bind {names more : List String} {x : Resolving β} {f : β → Resolving α}
    (h : Tells c names x) (hf : ∀ b, Tells c more (f b)) : Tells c (names ++ more) (x >>= f) := by
  intro s
  refine Ends.bind ((h s).mono ?_ ?_)
  · rintro b t J ⟨rfl, hnames⟩
    refine (hf b t).mono ?_ ?_
    · rintro a u K ⟨hK, hmore⟩
      refine ⟨hK, fun name hname => ?_⟩
      rcases List.mem_append.mp hname with hname | hname
      · exact hnames name hname
      · exact hmore name hname
    · rintro e K ⟨hK, he⟩
      refine ⟨hK, fun hnesting => ?_⟩
      obtain ⟨name, hname, hraises⟩ := he hnesting
      exact ⟨name, List.mem_append_right _ hname, hraises⟩
  · rintro e J ⟨hJ, he⟩
    refine ⟨hJ, fun hnesting => ?_⟩
    obtain ⟨name, hname, hraises⟩ := he hnesting
    exact ⟨name, List.mem_append_left _ hname, hraises⟩

/-- A computation before which nothing is imported. -/
theorem Tells.after {names : List String} {x : Resolving β} {f : β → Resolving α}
    (h : Tells c [] x) (hf : ∀ b, Tells c names (f b)) : Tells c names (x >>= f) := h.bind hf

/-- A computation behind which nothing is imported. -/
theorem Tells.before {names : List String} {x : Resolving β} {f : β → Resolving α}
    (h : Tells c names x) (hf : ∀ b, Tells c [] (f b)) : Tells c names (x >>= f) := by
  simpa using h.bind hf

/-- Without import statements there is nothing to tell. -/
theorem Tells.pure {a : α} : Tells c [] (Pure.pure a) := fun _ => ⟨rfl, by simp⟩

theorem Tells.update {f : State → State} : Tells c [] (modify f) := fun _ => ⟨rfl, by simp⟩

theorem Tells.fail {e : Fault} (h : e.isNesting = false) : Tells c [] (fail e : Resolving α) :=
  fun _ => ⟨rfl, by simp [h]⟩

/-- A look at the state imports nothing. -/
theorem Tells.of_looks {x : Resolving α} {post : State → α → Prop}
    (h : ∀ s, Looks x (post s) s) : Tells c [] x := by
  intro s
  refine ((h s).ends []).mono ?_ ?_
  · rintro a t J ⟨-, -, hJ⟩
    exact ⟨hJ, by simp⟩
  · rintro e J ⟨he, hJ⟩
    exact ⟨hJ, by simp [he]⟩

/-! ## Declarations

Declarations of labels, structs and pragmas import nothing, and no fault of theirs is about
nesting. -/

theorem declare_tells : Tells c [] (declare c) := fun _ => ⟨rfl, by simp⟩

/-- By induction on the declarations. -/
theorem declareLabels_tells : ∀ decls, Tells c [] (declareLabels c decls)
  | [] => by
      rw [declareLabels]
      exact Tells.pure
  | decl :: decls => by
      rw [declareLabels]
      refine declare_tells.after fun id => ?_
      refine Tells.update.after fun _ => ?_
      dsimp only
      split
      · exact Tells.update.after fun _ => (declareLabels_tells decls).after fun _ => Tells.pure
      · exact (declareLabels_tells decls).after fun _ => Tells.pure

theorem defineStruct_tells (depth : Nat) (name : String) (fields : List Syntax.Field) :
    Tells c [] (defineStruct c depth name fields) := by
  unfold defineStruct
  refine (Tells.of_looks (structFields_looks name fields [])).after fun _ => ?_
  refine declare_tells.after fun _ => Tells.update.after fun _ => ?_
  split
  · exact Tells.update
  · exact Tells.pure

theorem pragma_tells (depth : Nat) (name : String) (value : Option Syntax.Expr)
    (site : Location) : Tells c [] (pragma c depth name value site) := by
  unfold pragma
  split
  · exact Tells.fail rfl
  split
  · exact (Tells.of_looks (alignment_looks value site)).after fun _ => Tells.update
  split
  · cases value with
    | some value => exact Tells.fail rfl
    | none => exact Tells.update
  · exact Tells.fail rfl

/-! ## Statements -/

/-- One import statement gets a program, or fails for a reason of its own. -/
theorem importNamed_tells (hforgets : c.Forgets) (name : String) (site : Location) :
    Tells c [name] (importNamed c name site) := by
  intro s
  refine importNamed_ends (fun _ => ⟨rfl, by simp [Fault.isNesting]⟩) (fun path htarget hactive => ?_)
    fun path htarget hidle => ?_
  · exact ⟨rfl, fun _ => ⟨name, by simp, path, htarget, Or.inl ⟨any_same_iff.mpr hactive, site, rfl⟩⟩⟩
  · have hidle := any_same_eq_false_iff.mpr hidle
    have hforgets := hforgets (c.source.identity path)
    rw [importFound_run, List.lookup_nil]
    dsimp only
    cases hrun : c.importFile (c.source.identity path) [] with
    | ok program I =>
        rw [hrun] at hforgets
        obtain rfl : I = [] := hforgets
        refine Ends.bind (Ends.update (Ends.pure ⟨rfl, fun other hother => ?_⟩))
        rw [List.mem_singleton.mp hother]
        exact ⟨path, program, htarget, hidle, hrun⟩
    | error e I =>
        rw [hrun] at hforgets
        obtain rfl : I = [] := hforgets
        exact ⟨rfl, fun _ => ⟨name, by simp, path, htarget, Or.inr ⟨hidle, hrun⟩⟩⟩

mutual

/-- The imports of a statement are those of its command. -/
theorem stmt_tells (hforgets : c.Forgets) (depth : Nat) :
    ∀ s, Tells c (Syntax.Stmt.imports s) (stmt c depth s)
  | .mk decls command span => by
      rw [stmt]
      refine (declareLabels_tells decls).after fun _ => ?_
      refine (declareLabels_tells (siteLabels command)).after fun _ => ?_
      exact (action_tells hforgets depth (c.locate span) command).before fun _ => Tells.pure

theorem stmts_tells (hforgets : c.Forgets) (depth : Nat) :
    ∀ ss, Tells c (Syntax.Stmt.listImports ss) (stmts c depth ss)
  | [] => by
      rw [stmts]
      exact Tells.pure
  | s :: ss => by
      rw [stmts]
      exact (stmt_tells hforgets depth s).bind fun _ =>
        (stmts_tells hforgets depth ss).before fun _ => Tells.pure

theorem optionalBranch_tells (hforgets : c.Forgets) (depth : Nat) :
    ∀ s, Tells c (Syntax.Stmt.optionImports s) (optionalBranch c depth s)
  | none => by
      rw [optionalBranch]
      exact Tells.pure
  | some s => by
      rw [optionalBranch]
      exact (stmt_tells hforgets depth s).before fun _ => Tells.pure

/-- One case for each command. -/
theorem action_tells (hforgets : c.Forgets) (depth : Nat) (site : Location) :
    ∀ command, Tells c (Syntax.Command.imports command) (action c depth site command)
  | .importFile file => by
      rw [action]
      exact (importNamed_tells hforgets file.text site).before fun _ => Tells.pure
  | .evaluate value | .goto value _ => by
      rw [action]
      exact (Tells.of_looks (expr_looks c value)).after fun _ => Tells.pure
  | .define name value => by
      rw [action]
      refine (Tells.of_looks (expr_looks c value)).after fun _ => ?_
      exact declare_tells.after fun _ => Tells.update.after fun _ => Tells.pure
  | .defineArray name size element => by
      rw [action]
      refine (Tells.of_looks (count_looks c size)).after fun _ => ?_
      cases element with
      | none =>
          refine Tells.pure.after fun _ => declare_tells.after fun _ => ?_
          exact Tells.update.after fun _ => Tells.pure
      | some element =>
          refine (Tells.of_looks (typeExpr_looks c element)).after fun _ => ?_
          exact declare_tells.after fun _ => Tells.update.after fun _ => Tells.pure
  | .assign target value => by
      rw [action]
      refine (Tells.of_looks (expr_looks c target)).after fun _ => ?_
      exact (Tells.of_looks (expr_looks c value)).after fun _ => Tells.pure
  | .block body => by
      rw [action]
      refine Tells.update.after fun _ => ?_
      exact (stmts_tells hforgets (depth + 1) body).before fun _ =>
        Tells.update.after fun _ => Tells.pure
  | .branch test taken otherwise => by
      rw [action]
      refine (Tells.of_looks (condition_looks c test)).after fun _ => ?_
      refine (stmt_tells hforgets (depth + 1) taken).bind fun _ => ?_
      exact (optionalBranch_tells hforgets (depth + 1) otherwise).before fun _ => Tells.pure
  | .loop test body bodyFirst => by
      rw [action]
      refine (Tells.of_looks (condition_looks c test)).after fun _ => ?_
      exact (stmt_tells hforgets (depth + 1) body).before fun _ => Tells.pure
  | .struct name fields => by
      rw [action]
      exact (defineStruct_tells depth name.text fields).after fun _ => Tells.pure
  | .words values => by
      rw [action]
      exact (Tells.of_looks (exprList_looks c values)).after fun _ => Tells.pure
  | .pragma name value => by
      rw [action]
      exact (pragma_tells depth name.text value site).after fun _ => Tells.pure

end

/-! ## Files -/

/-- A file is resolved in two passes: its statements first, and then its label uses. -/
theorem file_run (c : Context) (tree : Syntax.Program) (I : Imports) :
    file c tree I =
      match stmts c 0 tree (.start c.builtins) I with
      | .ok opened J =>
          match Stmt.bindList opened.2.scopes.findLabel opened.1 with
          | .ok ss => .ok (.mk c.file ss opened.2.exports opened.2.pragmas) J
          | .error fault => .error fault J
      | .error e J => .error e J := by
  show EStateM.bind (stmts c 0 tree (.start c.builtins)) _ I = _
  unfold EStateM.bind
  cases stmts c 0 tree (.start c.builtins) I with
  | error e J => rfl
  | ok opened J =>
      dsimp only
      cases Stmt.bindList opened.2.scopes.findLabel opened.1 <;> rfl

/-- How a file ends: as its statements do, and if these are resolved, as binding their label uses
does. -/
theorem file_ends {tree : Syntax.Program} {I : Imports} {post : List Stmt → State → Imports → Prop}
    {raise : Fault → Imports → Prop} {P : Program → Imports → Prop}
    (h : Ends (stmts c 0 tree) post raise (.start c.builtins) I)
    (hbound : ∀ opened s J ss, stmts c 0 tree (.start c.builtins) I = .ok (opened, s) J →
      post opened s J → Stmt.bindList s.scopes.findLabel opened = .ok ss →
      P (.mk c.file ss s.exports s.pragmas) J)
    (hunbound : ∀ opened s J e, post opened s J →
      Stmt.bindList s.scopes.findLabel opened = .error e → raise e J) :
    match file c tree I with
    | .ok p J => P p J
    | .error e J => raise e J := by
  unfold Ends at h
  rw [file_run]
  cases hrun : stmts c 0 tree (.start c.builtins) I with
  | error e J =>
      rw [hrun] at h
      exact h
  | ok opened J =>
      rw [hrun] at h
      dsimp only
      cases hbind : Stmt.bindList opened.2.scopes.findLabel opened.1 with
      | ok ss => exact hbound opened.1 opened.2 J ss hrun h hbind
      | error e => exact hunbound opened.1 opened.2 J e h hbind

/-- A file succeeds only if all its import statements do, and a fault of nesting is from one of
them. -/
theorem file_tells (hforgets : c.Forgets) (tree : Syntax.Program) :
    match file c tree [] with
    | .ok _ I => I = [] ∧ ∀ name ∈ Syntax.Stmt.listImports tree, c.Gives name
    | .error e I => I = [] ∧
        (e.isNesting = true → ∃ name ∈ Syntax.Stmt.listImports tree, c.Raises name e) := by
  refine file_ends (stmts_tells hforgets 0 tree (.start c.builtins)) (fun _ _ _ _ _ hend _ => hend)
    fun opened s I e hend hunbound => ?_
  have hbind := Stmt.bindList_fills s.scopes.findLabel opened
  rw [hunbound] at hbind
  obtain ⟨name, site, rfl⟩ := hbind
  exact ⟨hend.1, by simp [Fault.isNesting]⟩

end ByteJump.Resolve
