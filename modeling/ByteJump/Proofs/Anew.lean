import ByteJump.Proofs.Resolve.Imports
import ByteJump.Session

set_option autoImplicit false

/-!
# Resolving without keeping anything

`Session.resolveAnew` resolves an import each time it is met, however often that is.  It is the
measure for sessions: what it makes of a file depends on the files alone.

Here its recursion is opened once.  A file is resolved anew only if every file it imports is, below
one more active file, and a fault of nesting either closes a walk of active files or comes from one
of those imports.

`resolveFile_keeps` is the induction on the levels of imports in its general form, for any property
of what is kept.  `imports_of_anew` and `raised_of_anew` state the recursion for files that import
one another; the comparison with a session that keeps its imports is left to other modules.
-/

namespace ByteJump

namespace Session

variable (source : FileSource) (dirs : List Path)

/-- What a file is resolved in below the active files. -/
def context (active : List Path) (unit : FileUnit) (file : Path)
    (importFile : Path → Resolve.Loading Program) : Resolve.Context :=
  ⟨unit, file, ⟨0⟩, dirs, source, active ++ [file], importFile⟩

/-- How a file is resolved that is imported below the active files, and kept. -/
def importKept (levels : Nat) (active : List Path) (identity : Path) : Resolve.Loading Program :=
  match levels with
  | 0 => throw (.internal ("imports nest too deep at " ++ identity.text))
  | levels + 1 =>
      match source.load identity with
      | .error fault => throw fault
      | .ok tree => do
          let program ←
            resolveFile source dirs levels active (.library identity.key) identity tree
          modify fun imports => (identity.key, program) :: imports
          return program

/-- One level of the recursion. -/
theorem resolveFile_eq (levels : Nat) (active : List Path) (unit : FileUnit) (file : Path)
    (tree : Syntax.Program) :
    resolveFile source dirs levels active unit file tree =
      Resolve.file (context source dirs active unit file
        (importKept source dirs levels (active ++ [file]))) tree := by
  cases levels <;> rfl

/-- An import that was not kept before is loaded, resolved and kept. -/
theorem importKept_run (levels : Nat) (active : List Path) (path : Path) (I : Resolve.Imports) :
    importKept source dirs (levels + 1) active path I =
      match source.load path with
      | .error e => .error e I
      | .ok tree =>
          match resolveFile source dirs levels active (.library path.key) path tree I with
          | .ok p J => .ok p ((path.key, p) :: J)
          | .error e J => .error e J := by
  unfold importKept
  dsimp only
  cases source.load path with
  | error e => rfl
  | ok tree =>
      dsimp only
      show EStateM.bind _ _ I = _
      unfold EStateM.bind
      cases resolveFile source dirs levels active (.library path.key) path tree I <;> rfl

variable {source dirs} in
/-- What holds of the kept imports before a file is resolved still holds behind it, if one file below
imports that keep it and one more kept import do no harm. -/
theorem resolveFile_keeps {P : Resolve.Imports → Prop} {Q : FileUnit → Program → Prop}
    (hfile : ∀ (c : Resolve.Context) (tree : Syntax.Program) {I : Resolve.Imports},
      (∀ path J, P J → match c.importFile path J with
        | .ok _ K => P K
        | .error _ K => P K) →
      P I → match Resolve.file c tree I with
        | .ok p J => Q c.unit p ∧ P J
        | .error _ J => P J)
    (hkept : ∀ {path : Path} {p : Program} {I : Resolve.Imports}, P I →
      Q (.library path.key) p → P ((path.key, p) :: I))
    (levels : Nat) (active : List Path) (unit : FileUnit) (file : Path) (tree : Syntax.Program)
    {I : Resolve.Imports} (hI : P I) :
    match resolveFile source dirs levels active unit file tree I with
    | .ok p J => Q unit p ∧ P J
    | .error _ J => P J := by
  induction levels generalizing active unit file tree I with
  | zero =>
      rw [resolveFile_eq]
      exact hfile _ tree (fun path J hJ => hJ) hI
  | succ levels ih =>
      rw [resolveFile_eq]
      refine hfile _ tree (fun path J hJ => ?_) hI
      show match importKept source dirs (levels + 1) (active ++ [file]) path J with
        | .ok _ K => P K
        | .error _ K => P K
      rw [importKept_run]
      cases source.load path with
      | error e => exact hJ
      | ok tree' =>
          have hpath := ih (active ++ [file]) (.library path.key) path tree' hJ
          dsimp only
          cases hresolve : resolveFile source dirs levels (active ++ [file]) (.library path.key)
              path tree' J with
          | error e K =>
              rw [hresolve] at hpath
              exact hpath
          | ok p K =>
              rw [hresolve] at hpath
              exact hkept hpath.2 hpath.1

/-- A session ends with a main file as resolving it does, and keeps the imports it ends with. -/
theorem resolve_ends {Q : Except Fault Program → Resolve.Imports → Prop} {session : Session}
    {tree : Syntax.Program} {file : Path}
    (h : match resolveFile session.source session.searchPaths (session.source.count + 1) []
        (.main session.turn) file tree session.imports with
      | .ok p I => Q (.ok p) I
      | .error e I => Q (.error e) I) :
    Q (session.resolve tree file).1 (session.resolve tree file).2.imports := by
  unfold Session.resolve
  dsimp only [EStateM.run]
  split <;> rename_i hrun <;> rw [hrun] at h <;> exact h

/-- A file resolved below the active files, with imports nesting at most `levels` deep, and none of
them kept. -/
def resolveAnew :
    Nat → List Path → FileUnit → Path → Syntax.Program → Resolve.Loading Program
  | levels, active, unit, file, tree =>
    let importFile : Path → Resolve.Loading Program :=
      match levels with
      | 0 => fun identity => throw (.internal ("imports nest too deep at " ++ identity.text))
      | levels + 1 => fun identity =>
          match source.load identity with
          | .error fault => throw fault
          | .ok tree =>
              resolveAnew levels (active ++ [file]) (.library identity.key) identity tree
    Resolve.file (context source dirs active unit file importFile) tree

/-- How a file is resolved that is imported below the active files, and not kept. -/
def importAnew (levels : Nat) (active : List Path) (identity : Path) : Resolve.Loading Program :=
  match levels with
  | 0 => throw (.internal ("imports nest too deep at " ++ identity.text))
  | levels + 1 =>
      match source.load identity with
      | .error fault => throw fault
      | .ok tree => resolveAnew source dirs levels active (.library identity.key) identity tree

/-- One level of the recursion. -/
theorem resolveAnew_eq (levels : Nat) (active : List Path) (unit : FileUnit) (file : Path)
    (tree : Syntax.Program) :
    resolveAnew source dirs levels active unit file tree =
      Resolve.file (context source dirs active unit file
        (importAnew source dirs levels (active ++ [file]))) tree := by
  cases levels <;> rfl

/-- By induction on the levels: what a file tells, its imports have told. -/
theorem resolveAnew_tells :
    ∀ (levels : Nat) (active : List Path) (unit : FileUnit) (file : Path) (tree : Syntax.Program),
      match resolveAnew source dirs levels active unit file tree [] with
      | .ok _ I => I = [] ∧ ∀ name ∈ Syntax.Stmt.listImports tree,
          (context source dirs active unit file
            (importAnew source dirs levels (active ++ [file]))).Gives name
      | .error e I => I = [] ∧ (e.isNesting = true → ∃ name ∈ Syntax.Stmt.listImports tree,
          (context source dirs active unit file
            (importAnew source dirs levels (active ++ [file]))).Raises name e) := by
  intro levels
  induction levels with
  | zero =>
      intro active unit file tree
      rw [resolveAnew_eq]
      exact Resolve.file_tells (fun path => rfl) tree
  | succ levels ih =>
      intro active unit file tree
      rw [resolveAnew_eq]
      refine Resolve.file_tells (fun path => ?_) tree
      show match importAnew source dirs (levels + 1) (active ++ [file]) path [] with
        | .ok _ I => I = []
        | .error _ I => I = []
      unfold importAnew
      dsimp only
      cases source.load path with
      | error fault => rfl
      | ok tree' =>
          have hpath := ih (active ++ [file]) (.library path.key) path tree'
          dsimp only
          split <;> rename_i hrun <;> rw [hrun] at hpath <;> exact hpath.1

end Session

namespace ImportGraph

variable {g : ImportGraph} {active : List Path} {unit : FileUnit} {file : Path}
  {tree : Syntax.Program}

/-- A file resolved anew. -/
def anew (g : ImportGraph) : Nat → List Path → FileUnit → Path → Syntax.Program →
    Resolve.Loading Program :=
  Session.resolveAnew g.files.source g.dirs

/-- The file at `path` is resolved anew as an import below the active files. -/
def Resolves (g : ImportGraph) (levels : Nat) (active : List Path) (path : Path) : Prop :=
  ∃ tree program, g.files.at? path.key = some tree ∧
    g.anew levels active (.library path.key) path tree [] = .ok program []

/-- A path that is found can be loaded. -/
theorem load_of_target {name : String} {path : Path}
    (h : g.files.source.target g.dirs name = some path) :
    ∃ tree, g.files.at? path.key = some tree ∧ g.files.source.load path = .ok tree := by
  have hcontains := FileSource.contains_of_target h
  rw [MemoryFiles.contains_source, Option.isSome_iff_exists] at hcontains
  obtain ⟨tree, htree⟩ := hcontains
  exact ⟨tree, htree, by rw [MemoryFiles.load_source, htree]⟩

/-- A file that is resolved anew imports files that are not active and are resolved anew. -/
theorem imports_of_anew {levels : Nat} {program : Program} {I : Resolve.Imports}
    (h : g.anew levels active unit file tree [] = .ok program I) {name : String}
    (hname : name ∈ Syntax.Stmt.listImports tree) {path : Path}
    (hpath : g.files.source.target g.dirs name = some path) :
    path.key ∉ (active ++ [file]).map Path.key ∧
      ∃ fewer, levels = fewer + 1 ∧ g.Resolves fewer (active ++ [file]) path := by
  have htells := Session.resolveAnew_tells g.files.source g.dirs levels active unit file tree
  unfold anew at h
  rw [h] at htells
  obtain ⟨path', program', hpath', hactive, hprogram⟩ := htells.2 name hname
  obtain rfl : path = path' := Option.some.inj (hpath.symm.trans hpath')
  refine ⟨any_same_eq_false_iff.mp hactive, ?_⟩
  obtain ⟨tree', htree', hload⟩ := load_of_target hpath
  replace hprogram : Session.importAnew g.files.source g.dirs levels (active ++ [file]) path [] =
    .ok program' [] := hprogram
  unfold Session.importAnew at hprogram
  cases levels with
  | zero => cases hprogram
  | succ fewer =>
      dsimp only at hprogram
      rw [hload] at hprogram
      exact ⟨fewer, rfl, tree', program', htree', hprogram⟩

/-- A fault of nesting is raised at an import statement of the file, or by the file that it
imports. -/
theorem raised_of_anew {levels : Nat} {e : Fault} {I : Resolve.Imports}
    (h : g.anew levels active unit file tree [] = .error e I) (hnesting : e.isNesting = true) :
    ∃ name ∈ Syntax.Stmt.listImports tree, ∃ path,
      g.files.source.target g.dirs name = some path ∧
      ((path.key ∈ (active ++ [file]).map Path.key ∧
          ∃ site, e = .importCycle (active ++ [file] ++ [path]) site) ∨
        path.key ∉ (active ++ [file]).map Path.key ∧
          ∃ tree', g.files.at? path.key = some tree' ∧
            (levels = 0 ∨ ∃ fewer, levels = fewer + 1 ∧
              g.anew fewer (active ++ [file]) (.library path.key) path tree' [] =
                .error e [])) := by
  have htells := Session.resolveAnew_tells g.files.source g.dirs levels active unit file tree
  unfold anew at h
  rw [h] at htells
  obtain ⟨name, hname, path, hpath, hraises⟩ := htells.2 hnesting
  refine ⟨name, hname, path, hpath, hraises.imp ?_ ?_⟩
  · rintro ⟨hactive, he⟩
    exact ⟨any_same_iff.mp hactive, he⟩
  · rintro ⟨hactive, he⟩
    obtain ⟨tree', htree', hload⟩ := load_of_target hpath
    refine ⟨any_same_eq_false_iff.mp hactive, tree', htree', ?_⟩
    replace he : Session.importAnew g.files.source g.dirs levels (active ++ [file]) path [] =
      .error e [] := he
    unfold Session.importAnew at he
    cases levels with
    | zero => exact Or.inl rfl
    | succ fewer =>
        dsimp only at he
        rw [hload] at he
        exact Or.inr ⟨fewer, rfl, he⟩

end ImportGraph

end ByteJump
