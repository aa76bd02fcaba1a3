import ByteJump.Proofs.Resolve.NamedFiles

set_option autoImplicit false

/-!
# Alignments of files

A file that was resolved has an alignment that a pragma accepts, also if it has no such pragma, and so
has every import a session keeps.

An alignment enters a file in one place, the pragma that sets it, and is checked there.  `Settles`
says that a computation keeps acceptance of the pragmas of the file and of all kept imports; it
holds of every function of the resolver, mostly because the function does not touch the pragmas at
all.  The accepted alignments of a session follow by the induction on its levels and its mains,
which is the general one for what resolving keeps.
-/

namespace ByteJump

/-- An alignment that a pragma accepts. -/
def Pragmas.Accepted (p : Pragmas) : Prop := 1 ≤ p.align ∧ p.align ≤ Memory.maxAlign

namespace Resolve

variable {α β : Type} {c : Context}

/-- All files that are kept have alignments that a pragma accepts. -/
def Imports.Accepted (I : Imports) : Prop :=
  ∀ key q, I.lookup key = some q → q.pragmas.Accepted

theorem Imports.Accepted.cons {I : Imports} {key : Path.Key} {p : Program} (hI : I.Accepted)
    (hp : p.pragmas.Accepted) : Imports.Accepted ((key, p) :: I) := by
  intro other q hq
  rcases Imports.lookup_cons hq with ⟨-, rfl⟩ | hold
  · exact hp
  · exact hI other q hold

/-! ## Settings of a file -/

/-- Alignments stay accepted, that of the file and those of the imports that are kept. -/
def Settles (x : Resolving α) : Prop :=
  ∀ s I, s.pragmas.Accepted → I.Accepted →
    Ends x (fun _ t J => t.pragmas.Accepted ∧ J.Accepted) (fun _ J => J.Accepted) s I

/-- Both parts keep what is accepted. -/
theorem Settles.bind {x : Resolving β} {f : β → Resolving α} (h : Settles x)
    (hf : ∀ b, Settles (f b)) : Settles (x >>= f) :=
  fun s I hs hI => Ends.bind ((h s I hs hI).mono (fun b t J hend => hf b t J hend.1 hend.2)
    fun _ _ hJ => hJ)

theorem Settles.pure {a : α} : Settles (Pure.pure a) := fun _ _ hs hI => ⟨hs, hI⟩

theorem Settles.fail {e : Fault} : Settles (fail e : Resolving α) := fun _ _ _ hI => hI

theorem Settles.update {f : State → State}
    (h : ∀ s, s.pragmas.Accepted → (f s).pragmas.Accepted) : Settles (modify f) :=
  fun s _ hs hI => ⟨h s hs, hI⟩

/-- A look at the state changes nothing. -/
theorem Settles.of_looks {x : Resolving α} {post : State → α → Prop}
    (h : ∀ s, Looks x (post s) s) : Settles x := by
  intro s I hs hI
  refine ((h s).ends I).mono ?_ ?_
  · rintro a t J ⟨-, rfl, rfl⟩
    exact ⟨hs, hI⟩
  · rintro e J ⟨-, rfl⟩
    exact hI

theorem declare_settles : Settles (declare c) := fun _ _ hs hI => ⟨hs, hI⟩

theorem updateScopes_settles {change : Scopes → Scopes} : Settles (updateScopes change) :=
  .update fun _ hs => hs

/-- By induction on the declarations, none of which is a pragma. -/
theorem declareLabels_settles : ∀ decls, Settles (declareLabels c decls)
  | [] => by
      rw [declareLabels]
      exact .pure
  | decl :: decls => by
      rw [declareLabels]
      refine declare_settles.bind fun id => updateScopes_settles.bind fun _ => ?_
      have hrest : ∀ label : Label, Settles (do
          let labels ← declareLabels c decls
          return label :: labels) := fun label => (declareLabels_settles decls).bind fun _ => .pure
      dsimp only
      split
      · refine Settles.bind (.update fun _ => ?_) fun _ => hrest _
        exact fun hs => hs
      · exact hrest _

theorem defineStruct_settles (depth : Nat) (name : String) (fields : List Syntax.Field) :
    Settles (defineStruct c depth name fields) := by
  unfold defineStruct
  refine (Settles.of_looks (structFields_looks name fields [])).bind fun _ => ?_
  refine declare_settles.bind fun _ => updateScopes_settles.bind fun _ => ?_
  split
  · exact .update fun _ hs => hs
  · exact .pure

/-- A pragma sets an alignment only if it is from 1 to the largest one. -/
theorem pragma_settles (depth : Nat) (name : String) (value : Option Syntax.Expr)
    (site : Location) : Settles (pragma c depth name value site) := by
  unfold pragma
  split
  · exact .fail
  split
  · intro s I hs hI
    exact Ends.look (alignment_looks value site s) (fun _ => hI) fun n hn => ⟨hn, hI⟩
  split
  · cases value with
    | some value => exact .fail
    | none => exact .update fun _ hs => hs
  · exact .fail

/-! ## Statements

A pragma inside a block is a fault, and an imported file has pragmas of its own.  So only the
pragmas at the top of a file matter. -/

/-- Importing a file keeps alignments accepted. -/
def Context.DeliversAccepted (c : Context) : Prop :=
  ∀ path I, I.Accepted →
    match c.importFile path I with
    | .ok _ J => J.Accepted
    | .error _ J => J.Accepted

/-- The imported file is kept with its own pragmas, which are accepted by hypothesis. -/
theorem importNamed_settles (hdelivers : c.DeliversAccepted) (name : String) (site : Location) :
    Settles (importNamed c name site) := by
  refine fun s I hs hI => importNamed_ends (fun _ => hI) (fun _ _ _ => hI) fun path _ _ => ?_
  rw [importFound_run]
  cases I.lookup (c.source.identity path).key with
  | some p => exact Ends.updated (Ends.pure ⟨hs, hI⟩)
  | none =>
      have hdelivered := hdelivers (c.source.identity path) I hI
      dsimp only
      cases hrun : c.importFile (c.source.identity path) I with
      | ok p J =>
          rw [hrun] at hdelivered
          exact Ends.updated (Ends.pure ⟨hs, hdelivered⟩)
      | error e J =>
          rw [hrun] at hdelivered
          exact hdelivered

mutual

theorem stmt_settles (hdelivers : c.DeliversAccepted) (depth : Nat) :
    ∀ s, Settles (stmt c depth s)
  | .mk decls command span => by
      rw [stmt]
      exact (declareLabels_settles decls).bind fun _ =>
        (declareLabels_settles (siteLabels command)).bind fun _ =>
          (action_settles hdelivers depth (c.locate span) command).bind fun _ => .pure

theorem stmts_settles (hdelivers : c.DeliversAccepted) (depth : Nat) :
    ∀ ss, Settles (stmts c depth ss)
  | [] => by
      rw [stmts]
      exact .pure
  | s :: ss => by
      rw [stmts]
      exact (stmt_settles hdelivers depth s).bind fun _ =>
        (stmts_settles hdelivers depth ss).bind fun _ => .pure

theorem optionalBranch_settles (hdelivers : c.DeliversAccepted) (depth : Nat) :
    ∀ s, Settles (optionalBranch c depth s)
  | none => by
      rw [optionalBranch]
      exact .pure
  | some s => by
      rw [optionalBranch]
      exact (stmt_settles hdelivers depth s).bind fun _ => .pure

/-- One case for each command; only the pragma changes the pragmas. -/
theorem action_settles (hdelivers : c.DeliversAccepted) (depth : Nat) (site : Location) :
    ∀ command, Settles (action c depth site command)
  | .importFile file => by
      rw [action]
      exact (importNamed_settles hdelivers file.text site).bind fun _ => .pure
  | .evaluate value | .goto value _ => by
      rw [action]
      exact (Settles.of_looks (expr_looks c value)).bind fun _ => .pure
  | .define name value => by
      rw [action]
      refine (Settles.of_looks (expr_looks c value)).bind fun _ => ?_
      exact declare_settles.bind fun _ => updateScopes_settles.bind fun _ => .pure
  | .defineArray name size element => by
      rw [action]
      refine (Settles.of_looks (count_looks c size)).bind fun n => ?_
      have hreserve : ∀ type : Ty, Settles (do
          let id ← declare c
          let v : Variable := ⟨id, name.text, .array type n, some n, c.locate name.span⟩
          updateScopes fun scopes => scopes.defineVariable v
          return some (Action.reserve v)) := fun _ =>
        declare_settles.bind fun _ => updateScopes_settles.bind fun _ => .pure
      cases element with
      | none => exact Settles.pure.bind hreserve
      | some element => exact (Settles.of_looks (typeExpr_looks c element)).bind hreserve
  | .assign target value => by
      rw [action]
      exact (Settles.of_looks (expr_looks c target)).bind fun _ =>
        (Settles.of_looks (expr_looks c value)).bind fun _ => .pure
  | .block body => by
      rw [action]
      exact updateScopes_settles.bind fun _ => (stmts_settles hdelivers (depth + 1) body).bind
        fun _ => updateScopes_settles.bind fun _ => .pure
  | .branch test taken otherwise => by
      rw [action]
      exact (Settles.of_looks (condition_looks c test)).bind fun _ =>
        (stmt_settles hdelivers (depth + 1) taken).bind fun _ =>
          (optionalBranch_settles hdelivers (depth + 1) otherwise).bind fun _ => .pure
  | .loop test body bodyFirst => by
      rw [action]
      exact (Settles.of_looks (condition_looks c test)).bind fun _ =>
        (stmt_settles hdelivers (depth + 1) body).bind fun _ => .pure
  | .struct name fields => by
      rw [action]
      exact (defineStruct_settles depth name.text fields).bind fun _ => .pure
  | .words values => by
      rw [action]
      exact (Settles.of_looks (exprList_looks c values)).bind fun _ => .pure
  | .pragma name value => by
      rw [action]
      exact (pragma_settles depth name.text value site).bind fun _ => .pure

end

/-! ## Files

A file starts with the alignment that it has without a pragma, and this one is accepted. -/

/-- The pragmas of the program are those of the last state. -/
theorem file_accepted (hdelivers : c.DeliversAccepted) (tree : Syntax.Program) {I : Imports}
    (hI : I.Accepted) :
    match file c tree I with
    | .ok p J => p.pragmas.Accepted ∧ J.Accepted
    | .error _ J => J.Accepted := by
  have hdefault : Pragmas.default.Accepted := by
    constructor <;> decide
  exact file_ends (stmts_settles hdelivers 0 tree (.start c.builtins) I hdefault hI)
    (fun _ _ _ _ _ hend _ => hend) fun _ _ _ _ hend _ => hend.2

end Resolve

namespace Session

open Resolve

variable {source : FileSource} {dirs : List Path}

theorem resolveFile_accepted (levels : Nat) (active : List Path) (unit : FileUnit) (file : Path)
    (tree : Syntax.Program) {I : Imports} (hI : I.Accepted) :
    match resolveFile source dirs levels active unit file tree I with
    | .ok p J => p.pragmas.Accepted ∧ J.Accepted
    | .error _ J => J.Accepted :=
  resolveFile_keeps (P := Imports.Accepted) (Q := fun _ p => p.pragmas.Accepted)
    (fun _ tree _ hdelivers hI => file_accepted hdelivers tree hI) Imports.Accepted.cons levels
    active unit file tree hI

theorem resolve_accepted (session : Session) (hI : session.imports.Accepted)
    (tree : Syntax.Program) (file : Path) : (session.resolve tree file).2.imports.Accepted := by
  have hfile := @resolveFile_accepted session.source session.searchPaths (session.source.count + 1)
    [] (.main session.turn) file tree _ hI
  refine resolve_ends (Q := fun _ I => I.Accepted) ?_
  split <;> rename_i hrun <;> rw [hrun] at hfile
  · exact hfile.2
  · exact hfile

/-- All imports of a session have alignments that a pragma accepts. -/
theorem afterMains_accepted (source : FileSource) (dirs : List Path)
    (mains : List (Syntax.Program × Path)) : (afterMains source dirs mains).imports.Accepted :=
  afterMains_keeps (P := Imports.Accepted) (fun _ _ h => nomatch h)
    (fun session tree file h => session.resolve_accepted h tree file) source dirs mains

end Session

end ByteJump
