import Mathlib.Data.List.Chain
import Mathlib.Data.List.Perm.Subperm
import Mathlib.Logic.Relation
import ByteJump.FileSource

set_option autoImplicit false

/-!
# The import graph

The nodes are files, told apart by the components of their paths.  There is an edge from a file to
the first file in the searched directories that each of its import statements names, wherever in
the file the statement stands.  A main file brings its own tree; all others have the one they are
stored with.
-/

namespace ByteJump

/-! ## Import statements -/

namespace Syntax

mutual

/-- The names that the import statements of a statement give. -/
def Stmt.imports : Stmt → List String
  | .mk _ command _ => Command.imports command

/-- The names that the import statements of several statements give. -/
def Stmt.listImports : List Stmt → List String
  | [] => []
  | s :: ss => Stmt.imports s ++ Stmt.listImports ss

/-- The names that the import statements of a statement give that may be absent. -/
def Stmt.optionImports : Option Stmt → List String
  | some s => Stmt.imports s
  | none => []

/-- The names that the import statements of a command give. -/
def Command.imports : Command → List String
  | .importFile file => [file.text]
  | .block body => Stmt.listImports body
  | .branch _ taken otherwise => Stmt.imports taken ++ Stmt.optionImports otherwise
  | .loop _ body _ => Stmt.imports body
  | .evaluate .. | .goto .. | .define .. | .defineArray .. | .assign .. | .struct .. | .words ..
  | .pragma .. => []

end

end Syntax

/-- The file that an import statement names: the first that exists in the searched directories. -/
def FileSource.target (source : FileSource) (dirs : List Path) (name : String) : Option Path :=
  (dirs.map fun dir => dir.join name).find? source.contains

theorem FileSource.contains_of_target {source : FileSource} {dirs : List Path} {name : String}
    {path : Path} (h : source.target dirs name = some path) : source.contains path = true :=
  List.find?_some h

theorem any_same_iff {active : List Path} {path : Path} :
    (active.any fun file => file.same path) = true ↔ path.key ∈ active.map Path.key := by
  rw [List.any_eq_true, List.mem_map]
  exact exists_congr fun file => and_congr_right fun _ => Path.same_iff

theorem any_same_eq_false_iff {active : List Path} {path : Path} :
    (active.any fun file => file.same path) = false ↔ path.key ∉ active.map Path.key := by
  rw [← any_same_iff, Bool.not_eq_true]

/-! ## Files in memory by key -/

namespace MemoryFiles

/-- The tree at the path with the given components. -/
def at? (files : MemoryFiles) (key : Path.Key) : Option Syntax.Program :=
  (List.find? (fun file => file.1.key = key) files).map Prod.snd

theorem find?_eq_at? (files : MemoryFiles) (path : Path) : files.find? path = files.at? path.key := by
  unfold find? at?
  congr 2

theorem load_source (files : MemoryFiles) (path : Path) :
    files.source.load path =
      match files.at? path.key with
      | some tree => .ok tree
      | none => .error (.load path .noSuchFile) := by
  rw [← find?_eq_at?]
  rfl

theorem contains_source (files : MemoryFiles) (path : Path) :
    files.source.contains path = (files.at? path.key).isSome := by
  rw [← find?_eq_at?]
  rfl

/-- A file has one of the keys that files were stored under. -/
theorem mem_keys_of_at? {files : MemoryFiles} {key : Path.Key} (h : (files.at? key).isSome) :
    key ∈ files.map fun file => file.1.key := by
  unfold at? at h
  rw [Option.isSome_map, List.find?_isSome] at h
  obtain ⟨file, hfile, hkey⟩ := h
  exact List.mem_map.mpr ⟨file, hfile, of_decide_eq_true hkey⟩

end MemoryFiles

/-! ## Edges and walks -/

/-- A main file with its tree, the files it can import, and the directories that are searched. -/
structure ImportGraph where
  files : MemoryFiles
  dirs : List Path
  main : Path
  mainTree : Syntax.Program

namespace ImportGraph

/-- The tree of a file. -/
def tree? (g : ImportGraph) (key : Path.Key) : Option Syntax.Program :=
  if key = g.main.key then some g.mainTree else g.files.at? key

/-- The file at the first key imports the one at the second. -/
def Edge (g : ImportGraph) (key imported : Path.Key) : Prop :=
  ∃ tree name path, g.tree? key = some tree ∧ name ∈ Syntax.Stmt.listImports tree ∧
    g.files.source.target g.dirs name = some path ∧ path.key = imported

/-- The file at the second key is imported from the first, perhaps through others. -/
def Reaches (g : ImportGraph) : Path.Key → Path.Key → Prop := Relation.ReflTransGen g.Edge

/-- Some file that the main file reaches imports itself, perhaps through others. -/
def Cyclic (g : ImportGraph) : Prop :=
  ∃ key, g.Reaches g.main.key key ∧ Relation.TransGen g.Edge key key

/-- A walk along edges from the main file over different files. -/
structure Walk (g : ImportGraph) (files : List Path) : Prop where
  start : files.head?.map Path.key = some g.main.key
  edges : (files.map Path.key).IsChain g.Edge
  distinct : (files.map Path.key).Nodup

/-- A walk followed by one of its own files. -/
def Closes (g : ImportGraph) (chain : List Path) : Prop :=
  ∃ walk last, chain = walk ++ [last] ∧ g.Walk walk ∧
    (chain.map Path.key).IsChain g.Edge ∧ last.key ∈ walk.map Path.key

variable {g : ImportGraph}

/-- Any file but the active ones has the tree it is stored with.  So it is when the main file is
among them, or when the main file is stored with its own tree. -/
def Covers (g : ImportGraph) (active : List Path) : Prop :=
  ∀ key, key ∉ active.map Path.key → g.tree? key = g.files.at? key

/-! ## Facts about walks -/

theorem Walk.main (g : ImportGraph) : g.Walk [g.main] := ⟨rfl, by simp, by simp⟩

theorem Walk.edges_snoc {walk : List Path} {file imported : Path} (h : g.Walk (walk ++ [file]))
    (hedge : g.Edge file.key imported.key) :
    ((walk ++ [file] ++ [imported]).map Path.key).IsChain g.Edge := by
  rw [List.map_append, List.map_cons, List.map_nil]
  refine List.isChain_append.mpr ⟨h.edges, by simp, ?_⟩
  intro key hkey key' hkey'
  have hlast : key = file.key := by simpa using hkey.symm
  have hhead : key' = imported.key := by simpa using hkey'.symm
  rw [hlast, hhead]
  exact hedge

theorem Walk.snoc {walk : List Path} {file imported : Path} (h : g.Walk (walk ++ [file]))
    (hedge : g.Edge file.key imported.key)
    (hnew : imported.key ∉ (walk ++ [file]).map Path.key) :
    g.Walk (walk ++ [file] ++ [imported]) where
  start := by
    have hstart := h.start
    cases walk <;> simpa using hstart
  edges := h.edges_snoc hedge
  distinct := by
    rw [List.map_append, List.nodup_append]
    refine ⟨h.distinct, by simp, ?_⟩
    intro key hkey key' hkey' heq
    have hhead : key' = imported.key := by simpa using hkey'
    exact hnew (hhead ▸ heq ▸ hkey)

theorem Walk.closes {walk : List Path} {file imported : Path} (h : g.Walk (walk ++ [file]))
    (hedge : g.Edge file.key imported.key)
    (hold : imported.key ∈ (walk ++ [file]).map Path.key) :
    g.Closes (walk ++ [file] ++ [imported]) :=
  ⟨walk ++ [file], imported, rfl, h, h.edges_snoc hedge, hold⟩

/-- Along a chain of edges every key reaches all later ones. -/
theorem pairwise_of_isChain {keys : List Path.Key} (h : keys.IsChain g.Edge) :
    keys.Pairwise (Relation.TransGen g.Edge) := by
  have htrans : keys.IsChain (Relation.TransGen g.Edge) :=
    h.imp fun _ _ => Relation.TransGen.single
  exact List.isChain_iff_pairwise.mp htrans

theorem Walk.main_mem {walk : List Path} (h : g.Walk walk) : g.main.key ∈ walk.map Path.key := by
  cases walk with
  | nil => simpa using h.start
  | cons file walk =>
      have hstart : file.key = g.main.key := by simpa using h.start
      simp [hstart]

theorem Walk.covers {walk : List Path} (h : g.Walk walk) : g.Covers walk := by
  intro key hkey
  have hmain : key ≠ g.main.key := fun heq => hkey (heq ▸ h.main_mem)
  rw [tree?, if_neg hmain]

/-- Every file of a walk reaches the last one. -/
theorem Walk.reaches_last {walk : List Path} {file : Path} (h : g.Walk (walk ++ [file]))
    {key : Path.Key} (hkey : key ∈ (walk ++ [file]).map Path.key) : g.Reaches key file.key := by
  have hpairs := pairwise_of_isChain h.edges
  rw [List.map_append, List.pairwise_append] at hpairs
  rw [List.map_append, List.mem_append] at hkey
  rcases hkey with hkey | hkey
  · exact (hpairs.2.2 key hkey file.key (by simp)).to_reflTransGen
  · have hlast : key = file.key := by simpa using hkey
    rw [hlast]
    exact Relation.ReflTransGen.refl

/-- The main file reaches every file of a walk. -/
theorem Walk.reaches {walk : List Path} (h : g.Walk walk) {key : Path.Key}
    (hkey : key ∈ walk.map Path.key) : g.Reaches g.main.key key := by
  have hpairs := pairwise_of_isChain h.edges
  cases walk with
  | nil => simp at hkey
  | cons file walk =>
      have hstart : file.key = g.main.key := by simpa using h.start
      rw [List.map_cons, List.pairwise_cons, hstart] at hpairs
      rw [List.map_cons, List.mem_cons, hstart] at hkey
      rcases hkey with hkey | hkey
      · rw [hkey]
        exact Relation.ReflTransGen.refl
      · exact (hpairs.1 key hkey).to_reflTransGen

theorem stored_of_edge {key imported : Path.Key} (h : g.Edge key imported) :
    imported ∈ g.files.map fun file => file.1.key := by
  obtain ⟨tree, name, path, -, -, htarget, rfl⟩ := h
  have hcontains := FileSource.contains_of_target htarget
  rw [MemoryFiles.contains_source] at hcontains
  exact MemoryFiles.mem_keys_of_at? hcontains

theorem mem_tail_of_isChain {R : Path.Key → Path.Key → Prop} {stored : List Path.Key}
    (hstored : ∀ a b, R a b → b ∈ stored) :
    ∀ {first : Path.Key} {keys : List Path.Key}, (first :: keys).IsChain R →
      ∀ key ∈ keys, key ∈ stored
  | _, [], _, key, hkey => by simp at hkey
  | first, second :: keys, h, key, hkey => by
      rw [List.isChain_cons_cons] at h
      rcases List.mem_cons.mp hkey with rfl | hkey
      · exact hstored _ _ h.1
      · exact mem_tail_of_isChain hstored h.2 key hkey

/-- A walk has no more files than are stored, and the main file. -/
theorem Walk.length_le {walk : List Path} (h : g.Walk walk) :
    walk.length ≤ g.files.length + 1 := by
  have hedges := h.edges
  have hdistinct := h.distinct
  cases walk with
  | nil => simp
  | cons file walk =>
      rw [List.map_cons] at hedges hdistinct
      have hsubset := mem_tail_of_isChain (fun _ _ => stored_of_edge) hedges
      have hlength := (List.subperm_of_subset (List.nodup_cons.mp hdistinct).2 hsubset).length_le
      simpa using hlength

/-- A walk that closes shows that there is a cycle. -/
theorem Closes.cyclic {chain : List Path} (h : g.Closes chain) : g.Cyclic := by
  obtain ⟨walk, last, rfl, hwalk, hedges, hlast⟩ := h
  have hpairs := pairwise_of_isChain hedges
  rw [List.map_append, List.pairwise_append] at hpairs
  exact ⟨last.key, hwalk.reaches hlast, hpairs.2.2 last.key hlast last.key (by simp)⟩

end ImportGraph

end ByteJump
