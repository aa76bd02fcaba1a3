import Mathlib.Logic.Equiv.Basic
import ByteJump.Proofs.KeptImports

set_option autoImplicit false

/-!
# Sessions

What a session resolves is told by the files alone.  Cycles of imports are found exactly, and every
resolution ends.  What was resolved before makes no difference, failed or not.

A session is compared with the import graph of its files, which has no state.  `outcome` is what a
session makes of the graph, `outcomeAnew` what resolving without any kept import makes of it, and
both are the same up to the identities of declarations.  On the second side everything is a
recursion on levels, so that cycles can be found in the graph: a walk that closes is a cycle, and
where the main file leads to one, resolving it fails.  The last section goes from one resolution
to a history of them: `Session.Sound` is the invariant, saying that each kept file is the one that
resolving it anew would give. -/

namespace ByteJump

/-- Two outcomes of resolving are the same up to the units that declarations belong to and the
spelling of paths. -/
def SameOutcome (x y : Except Fault Program) : Prop :=
  ∃ move : Equiv.Perm FileUnit,
    (Renaming.moving move).outcome x = (Renaming.moving id).outcome y

/-- The value or the fault that a run of a computation ends with. -/
def Resolve.value {α : Type} : EStateM.Result Fault Imports α → Except Fault α
  | .ok a _ => .ok a
  | .error e _ => .error e

theorem Resolve.LoadsAlike.outcome {b : Bond} (hstrict : ¬ b.lenient) {x y : Loading Program}
    (h : LoadsAlike b (b.Via Program.rename) x y) {I : Imports} (hI : b.holds I) :
    b.left.outcome (value (x I)) = b.right.outcome (value (y [])) := by
  have h := h I hI
  cases hy : y [] with
  | ok q J =>
      rw [hy] at h
      obtain ⟨-, p, I', hx, hsame, -⟩ := h
      rw [hx]
      exact congrArg Except.ok hsame
  | error f J =>
      rw [hy] at h
      obtain ⟨e, I', hx, hsame, -⟩ := h.2.resolve_left hstrict
      rw [hx]
      exact congrArg Except.error hsame

theorem Resolve.LoadsAlike.holds {b : Bond} (hstrict : ¬ b.lenient) {x y : Loading Program}
    (h : LoadsAlike b (b.Via Program.rename) x y) {I : Imports} (hI : b.holds I) :
    match x I with
    | .ok _ I' => b.holds I'
    | .error _ I' => b.holds I' := by
  have h := h I hI
  cases hy : y [] with
  | ok q J =>
      rw [hy] at h
      obtain ⟨-, p, I', hx, -, hI'⟩ := h
      rw [hx]
      exact hI'
  | error f J =>
      rw [hy] at h
      obtain ⟨e, I', hx, -, hI'⟩ := h.2.resolve_left hstrict
      rw [hx]
      exact hI'

/-- What a session answers is what resolving the file under its kept imports gives. -/
theorem Session.resolve_fst (session : Session) (tree : Syntax.Program) (file : Path) :
    (session.resolve tree file).1 = Resolve.value (resolveFile session.source session.searchPaths
      (session.source.count + 1) [] (.main session.turn) file tree session.imports) := by
  unfold Session.resolve
  dsimp only
  split <;> rename_i hrun <;> exact congrArg Resolve.value hrun.symm

/-- The path of a renamed program is renamed with it. -/
theorem Program.file_rename {r : Renaming} (p : Program) : (p.rename r).file = r.path p.file := by
  cases p
  rfl

/-- A program is of the file that it was resolved from. -/
theorem Resolve.file_file {c : Context} {tree : Syntax.Program} {program : Program}
    {I J : Imports} (h : file c tree I = .ok program J) : program.file = c.file := by
  rw [file_run] at h
  split at h
  · split at h
    · cases h
      rfl
    · cases h
  · cases h

namespace ImportGraph

open Resolve

variable {g : ImportGraph}

/-- A session in which nothing was resolved resolves the main file. -/
def outcome (g : ImportGraph) : Except Fault Program :=
  ((Session.start g.files.source g.dirs).resolve g.mainTree g.main).1

/-- The main file resolved with nothing kept. -/
def outcomeAnew (g : ImportGraph) : Except Fault Program :=
  value (g.anew (g.files.length + 1) [] (.main 0) g.main g.mainTree [])

/-- The main file stands for itself. -/
theorem tree?_main (g : ImportGraph) : g.tree? g.main.key = some g.mainTree := if_pos rfl

/-- One level for each file is enough. -/
theorem enough_main {levels : Nat} (h : g.files.length + 1 ≤ levels) :
    g.Enough levels ([] ++ [g.main]) := by
  unfold Enough
  rw [List.nil_append, List.length_singleton]
  omega

/-- However many levels there are, as long as there are enough for all files, the main file is
resolved as it is with nothing kept. -/
theorem resolveFile_main {levels : Nat} (h : g.files.length + 1 ≤ levels) :
    (Renaming.moving id).outcome (value (Session.resolveFile g.files.source g.dirs levels []
        (.main 0) g.main g.mainTree [])) =
      (Renaming.moving id).outcome g.outcomeAnew :=
  (resolveFile_alike (Walk.main g) g.tree?_main (enough_main h) (enough_main le_rfl)).outcome id
    (by simp [keeping, Bond.moving])

theorem outcome_eq_outcomeAnew (g : ImportGraph) :
    (Renaming.moving id).outcome g.outcome = (Renaming.moving id).outcome g.outcomeAnew := by
  have hresolve := resolveFile_main (g := g) le_rfl
  rw [outcome, Session.resolve_fst]
  exact hresolve

/-! ## Cycles

Only the keys of paths matter for walks, so one may go from the paths that are reported to those
of the graph. -/

/-- Two lists of paths with the same keys. -/
theorem Walk.of_keys {walk walk' : List Path} (h : g.Walk walk)
    (hkeys : walk'.map Path.key = walk.map Path.key) : g.Walk walk' where
  start := by
    rw [← List.head?_map, hkeys, List.head?_map]
    exact h.start
  edges := by
    rw [hkeys]
    exact h.edges
  distinct := by
    rw [hkeys]
    exact h.distinct

theorem Closes.of_keys {chain chain' : List Path} (h : g.Closes chain)
    (hkeys : chain'.map Path.key = chain.map Path.key) : g.Closes chain' := by
  obtain ⟨walk, last, rfl, hwalk, hedges, hlast⟩ := h
  rw [List.map_append, List.map_cons, List.map_nil] at hkeys
  obtain ⟨walk', rest, rfl, hwalk', hrest⟩ := List.map_eq_append_iff.mp hkeys
  obtain ⟨last', rest', rfl, hlast', hnil⟩ := List.map_eq_cons_iff.mp hrest
  obtain rfl : rest' = [] := List.map_eq_nil_iff.mp hnil
  refine ⟨walk', last', rfl, hwalk.of_keys hwalk', ?_, ?_⟩
  · rw [List.map_append, List.map_cons, List.map_nil, hwalk', hlast']
    simpa using hedges
  · rw [hlast', hwalk']
    exact hlast

/-- The main file faults for nesting only when a walk closes. -/
theorem closes_of_outcomeAnew {e : Fault} (h : g.outcomeAnew = .error e)
    (hnesting : e.isNesting = true) :
    ∃ chain site, e = .importCycle chain site ∧ g.Closes chain := by
  unfold outcomeAnew at h
  cases hrun : g.anew (g.files.length + 1) [] (.main 0) g.main g.mainTree [] with
  | ok program I =>
      rw [hrun] at h
      cases h
  | error f I =>
      rw [hrun] at h
      cases h
      exact closes_of_anew hrun hnesting (Walk.main g) g.tree?_main (enough_main le_rfl)

/-- If a cycle can be reached from the main file it is not resolved. -/
theorem error_of_cyclic (h : g.Cyclic) : ∃ e, g.outcomeAnew = .error e := by
  obtain ⟨key, hreaches, hcycle⟩ := h
  unfold outcomeAnew
  cases hrun : g.anew (g.files.length + 1) [] (.main 0) g.main g.mainTree [] with
  | ok program I =>
      exact absurd hcycle (acyclic_of_anew hrun g.tree?_main (Walk.main g).covers hreaches)
  | error e I => exact ⟨e, rfl⟩

/-- An error on one side is one on the other. -/
theorem error_of_outcome_eq {r : Renaming} {x y : Except Fault Program} {e : Fault}
    (h : r.outcome x = r.outcome y) (hx : x = .error e) :
    ∃ f, y = .error f ∧ e.rename r = f.rename r := by
  rw [hx] at h
  cases y with
  | ok q => cases h
  | error f => exact ⟨f, rfl, Except.error.inj h⟩

/-- Cycles of imports are found exactly, and resolution ends: it never runs out of levels, and more
levels would make no difference; it fails if a cycle can be reached from the main file; it finds a
cycle only if there is one; and the chain it then shows is a walk from the main file that ends with
one of its own files. -/
theorem outcome_cycles (g : ImportGraph) :
    (∀ what, g.outcome ≠ .error (.internal what)) ∧
    (∀ levels, g.files.length + 1 ≤ levels →
      SameOutcome (value (Session.resolveFile g.files.source g.dirs levels [] (.main 0) g.main
        g.mainTree [])) g.outcome) ∧
    (g.Cyclic → ∃ e, g.outcome = .error e) ∧
    (¬ g.Cyclic → ∀ chain site, g.outcome ≠ .error (.importCycle chain site)) ∧
    ∀ chain site, g.outcome = .error (.importCycle chain site) → g.Closes chain := by
  have hcloses : ∀ chain site, g.outcome = .error (.importCycle chain site) → g.Closes chain := by
    intro chain site h
    obtain ⟨f, hf, hsame⟩ := error_of_outcome_eq g.outcome_eq_outcomeAnew h
    cases f with
    | importCycle chain' site' =>
        obtain ⟨_, _, hfault, hclosed⟩ := closes_of_outcomeAnew hf rfl
        cases hfault
        simp only [Fault.rename, Fault.importCycle.injEq] at hsame
        exact hclosed.of_keys (Path.map_key_of_map_standard hsame.1)
    | _ => cases hsame
  refine ⟨?_, ?_, ?_, ?_, hcloses⟩
  · intro what h
    obtain ⟨f, hf, hsame⟩ := error_of_outcome_eq g.outcome_eq_outcomeAnew h
    cases f with
    | internal what' =>
        obtain ⟨_, _, hfault, -⟩ := closes_of_outcomeAnew hf rfl
        cases hfault
    | _ => cases hsame
  · intro levels hlevels
    exact ⟨Equiv.refl _, (resolveFile_main hlevels).trans g.outcome_eq_outcomeAnew.symm⟩
  · intro hcyclic
    obtain ⟨e, he⟩ := error_of_cyclic hcyclic
    obtain ⟨f, hf, -⟩ := error_of_outcome_eq g.outcome_eq_outcomeAnew.symm he
    exact ⟨f, hf⟩
  · intro hacyclic chain site h
    exact hacyclic (hcloses chain site h).cyclic

/-! ## Turns

A kept file was resolved in some earlier turn, under another main file.  Which one that was makes
a difference to the identities of declarations only, and a permutation of the units accounts for
it. -/

/-- The main file and the imports of a graph under another main file that is stored. -/
def under (g : ImportGraph) (main : Path) (mainTree : Syntax.Program) : ImportGraph :=
  ⟨g.files, g.dirs, main, mainTree⟩

/-- The main file is stored with its tree. -/
def Stored (g : ImportGraph) : Prop := g.files.at? g.main.key = some g.mainTree

/-- The main file is one of the files that are stored. -/
theorem Stored.tree? (h : g.Stored) (key : Path.Key) : g.tree? key = g.files.at? key := by
  unfold ImportGraph.tree?
  split
  · rename_i hkey
    rw [hkey, h]
  · rfl

/-- What was kept under one main file is kept under any other, if their trees are stored. -/
theorem Kept.under (hstored : g.Stored) {main : Path} {mainTree : Syntax.Program}
    (hmain : (g.under main mainTree).Stored) {key : Path.Key} {program : Program}
    (h : g.Kept key program) : (g.under main mainTree).Kept key program := by
  obtain ⟨levels, active, file, tree, anew, hfile, htree, -, hrun, hsame⟩ := h
  refine ⟨levels, active, file, tree, anew, hfile, ?_, ?_, hrun, hsame⟩
  · rw [hmain.tree?]
    rw [hstored.tree?] at htree
    exact htree
  · exact fun key _ => hmain.tree? key

/-- A comparison of two resolutions that keep nothing. -/
noncomputable def moved (move : Equiv.Perm FileUnit) : Bond := .moving move (fun I => I = []) False

theorem anew_moved_of_imports {move : Equiv.Perm FileUnit} {levels : Nat} {active : List Path}
    {unit unit' : FileUnit} (hunit : move unit = unit') {file : Path} (tree : Syntax.Program)
    (h : ∀ path,
      LoadsAlike (moved move) ((moved move).Via Program.rename)
        (Session.importAnew g.files.source g.dirs levels (active ++ [file]) path)
        (Session.importAnew g.files.source g.dirs levels (active ++ [file]) path)) :
    LoadsAlike (moved move) ((moved move).Via Program.rename)
      (g.anew levels active unit file tree) (g.anew levels active unit' file tree) := by
  unfold anew
  rw [Session.resolveAnew_eq, Session.resolveAnew_eq]
  have hcontexts : (moved move).Contexts
      (Session.context g.files.source g.dirs active unit file
        (Session.importAnew g.files.source g.dirs levels (active ++ [file])))
      (Session.context g.files.source g.dirs active unit' file
        (Session.importAnew g.files.source g.dirs levels (active ++ [file]))) :=
    ⟨hunit, rfl, rfl⟩
  refine file_alike hcontexts tree fun name hname site site' hsite => ?_
  refine importNamed_agrees (by rfl) (by rfl) hsite fun path hpath => ?_
  cases hactive : (active ++ [file]).any fun other => other.same path with
  | true => exact .cycle hactive hactive rfl
  | false =>
      refine .program hactive hactive (LoadsAlike.congr ?_ rfl (h path))
      intro I hI
      obtain rfl : I = [] := hI
      rfl

/-- The unit of the main file may be any that is no library file. -/
theorem anew_moved (move : Equiv.Perm FileUnit)
    (hmove : ∀ key, move (.library key) = .library key) (levels : Nat) (active : List Path)
    {unit unit' : FileUnit} (hunit : move unit = unit') (file : Path) (tree : Syntax.Program) :
    LoadsAlike (moved move) ((moved move).Via Program.rename)
      (g.anew levels active unit file tree) (g.anew levels active unit' file tree) := by
  induction levels generalizing active unit unit' file tree with
  | zero =>
      refine anew_moved_of_imports hunit tree fun path => ?_
      exact LoadsAlike.throw (Or.inr (by simp [Fault.rename]))
  | succ levels ih =>
      refine anew_moved_of_imports hunit tree fun path => ?_
      unfold Session.importAnew
      dsimp only
      cases hload : g.files.source.load path with
      | ok tree' => exact ih _ (hmove _) path tree'
      | error e =>
          refine LoadsAlike.throw (Or.inr ?_)
          rfl

theorem file_of_anew {levels : Nat} {active : List Path} {unit : FileUnit} {file : Path}
    {tree : Syntax.Program} {program : Program} {I : Imports}
    (h : g.anew levels active unit file tree [] = .ok program I) : program.file = file := by
  unfold anew at h
  rw [Session.resolveAnew_eq] at h
  exact file_file h

/-- A kept program is kept under the path of its file. -/
theorem Kept.file_key {key : Path.Key} {program : Program} (h : g.Kept key program) :
    program.file.key = key := by
  obtain ⟨levels, active, file, tree, anew, hfile, -, -, hrun, hsame⟩ := h
  have hstandard := congrArg Program.file hsame
  rw [Program.file_rename, Program.file_rename, file_of_anew hrun] at hstandard
  exact (Path.standard_eq_iff.mp hstandard).trans hfile

/-- A kept program was made of a file that is there. -/
theorem Kept.tree? {key : Path.Key} {program : Program} (h : g.Kept key program) :
    ∃ tree, g.tree? key = some tree := by
  obtain ⟨levels, active, file, tree, anew, -, htree, -⟩ := h
  exact ⟨tree, htree⟩

/-- What is kept for a file is what it is resolved to as the main file. -/
theorem Kept.anew_main {program : Program} (h : g.Kept g.main.key program) :
    SameOutcome g.outcomeAnew (.ok program) := by
  obtain ⟨levels, active, file, tree, anew, hfile, htree, hcovers, hrun, hsame⟩ := h
  obtain rfl : g.mainTree = tree := Option.some.inj (g.tree?_main.symm.trans htree)
  rw [← hfile] at htree
  have hacyclic : ∀ key, g.Reaches g.main.key key → ¬ Relation.TransGen g.Edge key key := by
    rw [← hfile]
    exact fun key hkey => acyclic_of_anew hrun htree hcovers hkey
  refine ⟨Equiv.swap (.main 0) (.library g.main.key), ?_⟩
  have halike : LoadsAlike (again (Equiv.swap (.main 0) (.library g.main.key)))
      ((again (Equiv.swap (.main 0) (.library g.main.key))).Via Program.rename)
      (g.anew (g.files.length + 1) [] (.main 0) g.main g.mainTree)
      (g.anew levels active (.library g.main.key) file g.mainTree) := by
    refine anew_again _ (Walk.main g) g.tree?_main (enough_main le_rfl) hfile.symm
      (Equiv.swap_apply_left _ _) (fun key hkey => ?_) hacyclic
    refine Equiv.swap_apply_of_ne_of_ne (by simp) fun heq => ?_
    obtain rfl : key = g.main.key := by simpa using heq
    exact hacyclic _ Relation.ReflTransGen.refl hkey
  have halike := halike [] rfl
  rw [hrun] at halike
  obtain ⟨-, main, I, hmain, hvia, -⟩ := halike
  rw [outcomeAnew, hmain]
  exact congrArg Except.ok (hvia.trans hsame.symm)

end ImportGraph

/-! ## Histories -/

/-- Outcomes that are the same with declarations in their own units stay so in other units. -/
theorem outcome_moving {x y : Except Fault Program}
    (h : (Renaming.moving id).outcome x = (Renaming.moving id).outcome y)
    (move : FileUnit → FileUnit) :
    (Renaming.moving move).outcome x = (Renaming.moving move).outcome y := by
  have hmoved := congrArg (Renaming.outcome ⟨move, id⟩) h
  rw [Renaming.outcome_outcome, Renaming.outcome_outcome] at hmoved
  exact hmoved

namespace Session

open Resolve

/-- The session after the main files at some paths were resolved in turn, failed or not. -/
def after (source : FileSource) (dirs : List Path) (before : List Path) : Session :=
  before.foldl (fun session path => (session.resolvePath path).2) (start source dirs)

/-- Every import that a session keeps is what the file is resolved to under some main file. -/
structure Sound (files : MemoryFiles) (dirs : List Path) (session : Session) : Prop where
  source : session.source = files.source
  searchPaths : session.searchPaths = dirs
  kept : ∀ entry ∈ session.imports, ∃ main mainTree,
    (⟨files, dirs, main, mainTree⟩ : ImportGraph).Stored ∧
      (⟨files, dirs, main, mainTree⟩ : ImportGraph).Kept entry.1 entry.2

variable {files : MemoryFiles} {dirs : List Path} {session : Session}

/-- Nothing is kept at the start. -/
theorem Sound.start (files : MemoryFiles) (dirs : List Path) :
    Sound files dirs (Session.start files.source dirs) :=
  ⟨rfl, rfl, by simp [Session.start]⟩

theorem Sound.holds (h : Sound files dirs session) {main : Path} {tree : Syntax.Program}
    (hstored : (⟨files, dirs, main, tree⟩ : ImportGraph).Stored) :
    (⟨files, dirs, main, tree⟩ : ImportGraph).keeping.holds session.imports := by
  intro entry hentry
  obtain ⟨main', tree', hstored', hkept⟩ := h.kept entry hentry
  exact hkept.under hstored' hstored

theorem resolveFile_main_alike {main : Path} {tree : Syntax.Program} (turn : Nat) :
    LoadsAlike (⟨files, dirs, main, tree⟩ : ImportGraph).keeping
      ((⟨files, dirs, main, tree⟩ : ImportGraph).keeping.Via Program.rename)
      (resolveFile files.source dirs (files.length + 1) [] (.main turn) main tree)
      ((⟨files, dirs, main, tree⟩ : ImportGraph).anew (files.length + 1) [] (.main turn) main tree) :=
  ImportGraph.resolveFile_alike (ImportGraph.Walk.main _) (ImportGraph.tree?_main _)
    (ImportGraph.enough_main le_rfl) (ImportGraph.enough_main le_rfl)

/-- Resolving a main file keeps a session sound. -/
theorem Sound.resolvePath (h : Sound files dirs session) (path : Path) :
    Sound files dirs (session.resolvePath path).2 := by
  unfold Session.resolvePath
  rw [h.source, MemoryFiles.load_source]
  cases htree : files.at? path.key with
  | none => exact h
  | some tree =>
      have hstored : (⟨files, dirs, path, tree⟩ : ImportGraph).Stored := htree
      have hholds := (resolveFile_main_alike session.turn).holds id (h.holds hstored)
      show Sound files dirs (session.resolve tree path).2
      unfold Session.resolve
      rw [h.source, h.searchPaths]
      dsimp only
      split <;> rename_i hrun <;>
        rw [EStateM.run, show files.source.count = files.length from rfl] at hrun <;>
        rw [hrun] at hholds <;>
        exact ⟨rfl, rfl, fun entry hentry => ⟨path, tree, hstored, hholds entry hentry⟩⟩

/-- By induction on the history. -/
theorem Sound.after (files : MemoryFiles) (dirs before : List Path) :
    Sound files dirs (Session.after files.source dirs before) := by
  suffices ∀ session, Sound files dirs session → Sound files dirs
      (before.foldl (fun session path => (session.resolvePath path).2) session) from
    this _ (Sound.start files dirs)
  induction before with
  | nil => exact fun session h => h
  | cons path before ih => exact fun session h => ih _ (h.resolvePath path)

/-- A sound session resolves a main file as a resolution does that keeps nothing. -/
theorem Sound.outcome (h : Sound files dirs session) {path : Path} {tree : Syntax.Program}
    (htree : files.at? path.key = some tree) :
    (Renaming.moving id).outcome (session.resolve tree path).1 =
      (Renaming.moving id).outcome
        (value ((⟨files, dirs, path, tree⟩ : ImportGraph).anew (files.length + 1) []
          (.main session.turn) path tree [])) := by
  have hstored : (⟨files, dirs, path, tree⟩ : ImportGraph).Stored := htree
  rw [resolve_fst, h.source, h.searchPaths]
  exact (resolveFile_main_alike session.turn).outcome id (h.holds hstored)

/-- Two sound sessions resolve a main file to the same outcome. -/
theorem Sound.same_outcome {session' : Session} (h : Sound files dirs session)
    (h' : Sound files dirs session') (path : Path) :
    SameOutcome (session.resolvePath path).1 (session'.resolvePath path).1 := by
  unfold Session.resolvePath
  rw [h.source, h'.source, MemoryFiles.load_source]
  cases htree : files.at? path.key with
  | none => exact ⟨Equiv.refl _, rfl⟩
  | some tree =>
      refine ⟨Equiv.swap (.main session.turn) (.main session'.turn), ?_⟩
      have hmoved := (ImportGraph.anew_moved (g := ⟨files, dirs, path, tree⟩)
        (Equiv.swap (.main session.turn) (.main session'.turn))
        (fun key => Equiv.swap_apply_of_ne_of_ne (by simp) (by simp)) (files.length + 1) []
        (Equiv.swap_apply_left _ _) path tree).outcome id rfl
      exact (outcome_moving (h.outcome htree) _).trans (hmoved.trans (h'.outcome htree).symm)

/-- What a session keeps for a file is what a session in which nothing was resolved makes of it. -/
theorem Sound.kept_complete (h : Sound files dirs session) {key : Path.Key} {program : Program}
    (hentry : (key, program) ∈ session.imports) :
    program.file.key = key ∧
      SameOutcome ((Session.start files.source dirs).resolvePath program.file).1 (.ok program) := by
  obtain ⟨main, mainTree, hstored, hkept⟩ := h.kept (key, program) hentry
  obtain rfl : program.file.key = key := hkept.file_key
  obtain ⟨tree, htree⟩ := hkept.tree?
  rw [hstored.tree?] at htree
  have hstored' : (⟨files, dirs, program.file, tree⟩ : ImportGraph).Stored := htree
  obtain ⟨move, hmove⟩ := (hkept.under hstored hstored').anew_main
  refine ⟨rfl, move, ?_⟩
  have hstart := (Sound.start files dirs).outcome htree
  have hresolve : ((Session.start files.source dirs).resolvePath program.file).1 =
      ((Session.start files.source dirs).resolve tree program.file).1 := by
    unfold Session.resolvePath
    rw [(Sound.start files dirs).source, MemoryFiles.load_source, htree]
    rfl
  rw [hresolve, outcome_moving hstart]
  exact hmove

/-- What was resolved before in a session makes no difference: the outcome for a main file is the
one in a session in which nothing was resolved, and what the session keeps of imports is what such
a session would make of them. -/
theorem resolvePath_after (files : MemoryFiles) (dirs before : List Path) (main : Path) :
    SameOutcome ((after files.source dirs before).resolvePath main).1
        ((start files.source dirs).resolvePath main).1 ∧
      ∀ key program, (key, program) ∈ (after files.source dirs before).imports →
        program.file.key = key ∧
          SameOutcome ((start files.source dirs).resolvePath program.file).1 (.ok program) :=
  ⟨(Sound.after files dirs before).same_outcome (Sound.start files dirs) main,
    fun _ _ hentry => (Sound.after files dirs before).kept_complete hentry⟩

end Session

end ByteJump
