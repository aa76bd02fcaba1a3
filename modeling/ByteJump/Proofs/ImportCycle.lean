import ByteJump.Proofs.Anew
import ByteJump.Proofs.Resolve.SameFile

set_option autoImplicit false

/-!
# Cycles of imports

The active files are always a walk from the main file, so what stops resolution at an active file
closes that walk, and a walk cannot be longer than there are files.  A file that was resolved
reaches no active file and no cycle.  Its imports can therefore be kept: resolved again below other
active files, they give the same programs.
-/

namespace ByteJump.ImportGraph

open Resolve

variable {g : ImportGraph}

theorem Covers.snoc {active : List Path} (h : g.Covers active) (path : Path) :
    g.Covers (active ++ [path]) := by
  intro key hkey
  refine h key fun hmem => hkey ?_
  rw [List.map_append]
  exact List.mem_append_left _ hmem

theorem edge_iff {key imported : Path.Key} {tree : Syntax.Program}
    (htree : g.tree? key = some tree) :
    g.Edge key imported ↔ ∃ name ∈ Syntax.Stmt.listImports tree, ∃ path,
      g.files.source.target g.dirs name = some path ∧ path.key = imported := by
  constructor
  · rintro ⟨tree', name, path, htree', hname, hpath, himported⟩
    obtain rfl : tree = tree' := Option.some.inj (htree.symm.trans htree')
    exact ⟨name, hname, path, hpath, himported⟩
  · rintro ⟨name, hname, path, hpath, himported⟩
    exact ⟨tree, name, path, htree, hname, hpath, himported⟩

/-! ## Files that were resolved -/

/-- What a resolved file imports, directly or not, was not active. -/
theorem not_mem_active_of_anew {levels : Nat} {active : List Path} {unit : FileUnit} {file : Path}
    {tree : Syntax.Program} {program : Program} {I : Imports}
    (h : g.anew levels active unit file tree [] = .ok program I)
    (htree : g.tree? file.key = some tree) (hcovers : g.Covers (active ++ [file]))
    {key : Path.Key} (hkey : Relation.TransGen g.Edge file.key key) :
    key ∉ (active ++ [file]).map Path.key := by
  induction levels generalizing active unit file tree program I with
  | zero =>
      obtain ⟨mid, hedge, -⟩ := Relation.TransGen.head'_iff.mp hkey
      obtain ⟨name, hname, path, hpath, -⟩ := (edge_iff htree).mp hedge
      obtain ⟨-, fewer, hlevels, -⟩ := imports_of_anew h hname hpath
      cases hlevels
  | succ levels ih =>
      obtain ⟨mid, hedge, hrest⟩ := Relation.TransGen.head'_iff.mp hkey
      obtain ⟨name, hname, path, hpath, rfl⟩ := (edge_iff htree).mp hedge
      obtain ⟨hnew, fewer, hlevels, tree', program', htree', hrun⟩ := imports_of_anew h hname hpath
      obtain rfl : levels = fewer := Nat.succ.inj hlevels
      rcases Relation.reflTransGen_iff_eq_or_transGen.mp hrest with heq | hbelow
      · rw [heq]
        exact hnew
      · have hbelow := ih hrun ((hcovers path.key hnew).trans htree') (hcovers.snoc path) hbelow
        intro hmem
        rw [List.map_append] at hbelow
        exact hbelow (List.mem_append_left _ hmem)

/-- No cycle can be reached from a resolved file. -/
theorem acyclic_of_anew {levels : Nat} {active : List Path} {unit : FileUnit} {file : Path}
    {tree : Syntax.Program} {program : Program} {I : Imports}
    (h : g.anew levels active unit file tree [] = .ok program I)
    (htree : g.tree? file.key = some tree) (hcovers : g.Covers (active ++ [file]))
    {key : Path.Key} (hkey : g.Reaches file.key key) : ¬ Relation.TransGen g.Edge key key := by
  induction levels generalizing active unit file tree program I with
  | zero =>
      rcases Relation.ReflTransGen.cases_head hkey with rfl | ⟨mid, hedge, -⟩
      · exact fun hcycle => not_mem_active_of_anew h htree hcovers hcycle (by simp)
      · obtain ⟨name, hname, path, hpath, -⟩ := (edge_iff htree).mp hedge
        obtain ⟨-, fewer, hlevels, -⟩ := imports_of_anew h hname hpath
        cases hlevels
  | succ levels ih =>
      rcases Relation.ReflTransGen.cases_head hkey with rfl | ⟨mid, hedge, hrest⟩
      · exact fun hcycle => not_mem_active_of_anew h htree hcovers hcycle (by simp)
      · obtain ⟨name, hname, path, hpath, rfl⟩ := (edge_iff htree).mp hedge
        obtain ⟨hnew, fewer, hlevels, tree', program', htree', hrun⟩ :=
          imports_of_anew h hname hpath
        obtain rfl : levels = fewer := Nat.succ.inj hlevels
        exact ih hrun ((hcovers path.key hnew).trans htree') (hcovers.snoc path) hrest

/-! ## Files that were not -/

/-- There are levels left for every file that is not active. -/
def Enough (g : ImportGraph) (levels : Nat) (active : List Path) : Prop :=
  g.files.length + 2 ≤ levels + active.length

theorem Enough.positive {active : List Path} (hwalk : g.Walk active) {levels : Nat}
    (h : g.Enough levels active) : ∃ fewer, levels = fewer + 1 := by
  have hlength := hwalk.length_le
  unfold Enough at h
  exact ⟨levels - 1, by omega⟩

theorem Enough.snoc {levels : Nat} {active : List Path} (h : g.Enough (levels + 1) active)
    (path : Path) : g.Enough levels (active ++ [path]) := by
  unfold Enough at h ⊢
  rw [List.length_append, List.length_singleton]
  omega

/-- With enough levels, a fault of nesting closes a walk. -/
theorem closes_of_anew {levels : Nat} {active : List Path} {unit : FileUnit} {file : Path}
    {tree : Syntax.Program} {e : Fault} {I : Imports}
    (h : g.anew levels active unit file tree [] = .error e I) (hnesting : e.isNesting = true)
    (hwalk : g.Walk (active ++ [file])) (htree : g.tree? file.key = some tree)
    (henough : g.Enough levels (active ++ [file])) :
    ∃ chain site, e = .importCycle chain site ∧ g.Closes chain := by
  induction levels generalizing active unit file tree I with
  | zero =>
      obtain ⟨fewer, hlevels⟩ := henough.positive hwalk
      cases hlevels
  | succ levels ih =>
      obtain ⟨name, hname, path, hpath, hraised⟩ := raised_of_anew h hnesting
      have hedge : g.Edge file.key path.key := (edge_iff htree).mpr ⟨name, hname, path, hpath, rfl⟩
      rcases hraised with ⟨hactive, site, he⟩ | ⟨hnew, tree', htree', hbelow⟩
      · exact ⟨_, site, he, hwalk.closes hedge hactive⟩
      · rcases hbelow with hlevels | ⟨fewer, hlevels, hrun⟩
        · cases hlevels
        · obtain rfl : levels = fewer := Nat.succ.inj hlevels
          exact ih hrun (hwalk.snoc hedge hnew) ((hwalk.covers path.key hnew).trans htree')
            (henough.snoc path)

end ByteJump.ImportGraph
