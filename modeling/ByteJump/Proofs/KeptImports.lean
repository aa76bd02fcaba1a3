import Mathlib.Logic.Equiv.Defs
import ByteJump.Proofs.ImportCycle

set_option autoImplicit false

/-!
# Kept imports

An import that is kept gives what resolving it once more would give, up to the spelling of its
path: its outcome depends neither on the files that were active when it was resolved nor on those
that are active when it is used.  So a session, which keeps its imports, resolves a file to the
same outcome as a resolution that keeps nothing.

Two things make a kept import differ from one that is resolved now: the path that was used when it
was kept may be another spelling of the same file, and the files that were active at the time were
others.  The first is dealt with by renaming every path to a standard spelling.  For the second,
more active files can only lead to a refusal where there were none, and a file that is kept has
been resolved without one.  The comparison goes by induction on the levels of imports, one file
after the other, with the lemma on a file resolved twice for each.
-/

namespace ByteJump

/-! ## Paths by their keys -/

/-- One spelling for each path. -/
noncomputable def Path.standard (p : Path) : Path :=
  Classical.epsilon fun q : Path => q.key = p.key

/-- The standard spelling has the key of the path. -/
theorem Path.key_standard (p : Path) : p.standard.key = p.key :=
  Classical.epsilon_spec (p := fun q : Path => q.key = p.key) ⟨p, rfl⟩

/-- Two paths have one standard spelling if they have one key. -/
theorem Path.standard_eq_iff {p q : Path} : p.standard = q.standard ↔ p.key = q.key := by
  constructor
  · intro h
    rw [← p.key_standard, h, q.key_standard]
  · intro h
    unfold Path.standard
    rw [h]

theorem Path.map_key_of_map_standard {ps qs : List Path}
    (h : ps.map Path.standard = qs.map Path.standard) : ps.map Path.key = qs.map Path.key := by
  have hkeys := congrArg (List.map Path.key) h
  simpa [List.map_map, Function.comp_def, Path.key_standard] using hkeys

/-- Declarations moved to other units, and paths in their standard spelling. -/
noncomputable def Renaming.moving (move : FileUnit → FileUnit) : Renaming := ⟨move, Path.standard⟩

/-- A comparison in which the declarations of the left side are moved to other units. -/
noncomputable def Resolve.Bond.moving (move : Equiv.Perm FileUnit) (holds : Resolve.Imports → Prop)
    (lenient : Prop) : Resolve.Bond where
  left := .moving move
  right := .moving id
  left_injective := move.injective
  right_injective := Function.injective_id
  same_path := rfl
  holds := holds
  lenient := lenient

namespace ImportGraph

open Resolve

variable {g : ImportGraph}

/-! ## Resolving once more

A file whose import statements all get programs is resolved alike however many more files are
active, as long as none of its imports is one of these. -/

theorem importAnew_eq {levels : Nat} {active : List Path} {path : Path} {tree : Syntax.Program}
    (hload : g.files.source.load path = .ok tree) :
    Session.importAnew g.files.source g.dirs (levels + 1) active path =
      g.anew levels active (.library path.key) path tree := by
  unfold Session.importAnew
  dsimp only
  rw [hload]
  rfl

/-- A comparison with a resolution that may fail, when nothing is kept on either side. -/
noncomputable def again (move : Equiv.Perm FileUnit) : Bond := .moving move (fun I => I = []) True

/-- A file that no cycle can be reached from is resolved below any walk of active files if it is
resolved below some files, whatever they are. -/
theorem anew_again (move : Equiv.Perm FileUnit) {levels levels' : Nat} {active active' : List Path}
    {unit unit' : FileUnit} {file file' : Path} {tree : Syntax.Program}
    (hwalk : g.Walk (active ++ [file])) (htree : g.tree? file.key = some tree)
    (henough : g.Enough levels (active ++ [file])) (hfile : file.key = file'.key)
    (hunit : move unit = unit')
    (hmove : ∀ key, Relation.TransGen g.Edge file.key key → move (.library key) = .library key)
    (hacyclic : ∀ key, g.Reaches file.key key → ¬ Relation.TransGen g.Edge key key) :
    LoadsAlike (again move) ((again move).Via Program.rename)
      (g.anew levels active unit file tree) (g.anew levels' active' unit' file' tree) := by
  induction levels generalizing levels' active active' unit unit' file file' tree with
  | zero =>
      obtain ⟨fewer, hlevels⟩ := henough.positive hwalk
      cases hlevels
  | succ levels ih =>
      unfold anew
      rw [Session.resolveAnew_eq, Session.resolveAnew_eq]
      have hcontexts : (again move).Contexts
          (Session.context g.files.source g.dirs active unit file
            (Session.importAnew g.files.source g.dirs (levels + 1) (active ++ [file])))
          (Session.context g.files.source g.dirs active' unit' file'
            (Session.importAnew g.files.source g.dirs levels' (active' ++ [file']))) :=
        ⟨hunit, Path.standard_eq_iff.mpr hfile, rfl⟩
      refine file_alike hcontexts tree fun name hname site site' hsite => ?_
      refine importNamed_agrees (by rfl) (by rfl) hsite fun path hpath => ?_
      have hedge : g.Edge file.key path.key := (edge_iff htree).mpr ⟨name, hname, path, hpath, rfl⟩
      have hnew : path.key ∉ (active ++ [file]).map Path.key := by
        intro hactive
        refine hacyclic path.key (Relation.ReflTransGen.single hedge) ?_
        exact Relation.TransGen.tail' (hwalk.reaches_last hactive) hedge
      cases hright : (active' ++ [file']).any fun other => other.same path with
      | true => exact .refused trivial hright
      | false =>
          refine .program (any_same_eq_false_iff.mpr hnew) hright ?_
          obtain ⟨tree', htree', hload⟩ := load_of_target hpath
          cases levels' with
          | zero => exact LoadsAlike.of_lenient trivial rfl
          | succ levels' =>
              refine LoadsAlike.congr ?_ (congrFun (importAnew_eq hload) [])
                (ih (hwalk.snoc hedge hnew) ((hwalk.covers path.key hnew).trans htree')
                  (henough.snoc path) rfl (hmove path.key (Relation.TransGen.single hedge))
                  (fun key hkey => hmove key (Relation.TransGen.head hedge hkey))
                  (fun key hkey => hacyclic key (Relation.ReflTransGen.head hedge hkey)))
              intro I hI
              obtain rfl : I = [] := hI
              exact congrFun (importAnew_eq hload) []

/-! ## Keeping

A kept entry is compared with the program that resolving the file anew would give.  This is the
invariant of a session, and each file that is kept satisfies it. -/

/-- The program is what the file at the key is resolved to below some active files. -/
def Kept (g : ImportGraph) (key : Path.Key) (program : Program) : Prop :=
  ∃ levels active file tree anew, file.key = key ∧ g.tree? key = some tree ∧
    g.Covers (active ++ [file]) ∧
    g.anew levels active (.library key) file tree [] = .ok anew [] ∧
    program.rename (.moving id) = anew.rename (.moving id)

/-- A comparison with a resolution that keeps nothing. -/
noncomputable def keeping (g : ImportGraph) : Bond :=
  .moving (Equiv.refl FileUnit) (fun I => ∀ entry ∈ I, g.Kept entry.1 entry.2) False

/-- What was kept is what resolving once more gives. -/
theorem kept_again {levels : Nat} {active : List Path} {path : Path} {tree : Syntax.Program}
    {kept : Program} (hkept : g.Kept path.key kept) (hwalk : g.Walk (active ++ [path]))
    (htree : g.tree? path.key = some tree) (henough : g.Enough levels (active ++ [path])) :
    ∃ program, g.anew levels active (.library path.key) path tree [] = .ok program [] ∧
      kept.rename (.moving id) = program.rename (.moving id) := by
  obtain ⟨levels', active', file, tree', program', hfile, htree', hcovers, hrun, hsame⟩ := hkept
  obtain rfl : tree = tree' := Option.some.inj (htree.symm.trans htree')
  rw [← hfile] at htree'
  have hacyclic : ∀ key, g.Reaches path.key key → ¬ Relation.TransGen g.Edge key key := by
    rw [← hfile]
    exact fun key hkey => acyclic_of_anew hrun htree' hcovers hkey
  have halike : LoadsAlike (again (Equiv.refl FileUnit))
      ((again (Equiv.refl FileUnit)).Via Program.rename)
      (g.anew levels active (.library path.key) path tree)
      (g.anew levels' active' (.library path.key) file tree) :=
    anew_again _ hwalk htree henough hfile.symm rfl (fun _ _ => rfl) hacyclic
  have halike := halike [] rfl
  rw [hrun] at halike
  obtain ⟨-, program, I, hprogram, hvia, hI⟩ := halike
  obtain rfl : I = [] := hI
  exact ⟨program, hprogram, hsame.trans hvia.symm⟩

/-- A file that is imported is found alike, be it kept or not. -/
theorem found_alike {levels levels' : Nat} {active : List Path} {c : Context} {path : Path}
    {tree : Syntax.Program} (hwalk : g.Walk (active ++ [path]))
    (htree : g.tree? path.key = some tree) (hload : g.files.source.load path = .ok tree)
    (henough' : g.Enough levels' (active ++ [path]))
    (himport : c.importFile = Session.importKept g.files.source g.dirs (levels + 1) active)
    (h : LoadsAlike g.keeping (g.keeping.Via Program.rename)
      (Session.resolveFile g.files.source g.dirs levels active (.library path.key) path tree)
      (g.anew levels' active (.library path.key) path tree)) :
    LoadsAlike g.keeping (g.keeping.Via Program.rename) (importFound c path)
      (g.anew levels' active (.library path.key) path tree) := by
  intro I hI
  rw [importFound_run, himport, Session.importKept_run, hload]
  cases hlookup : I.lookup path.key with
  | some kept =>
      obtain ⟨before, behind, hsplit, -⟩ := List.lookup_eq_some_iff.mp hlookup
      have hkept : g.Kept path.key kept := hI (path.key, kept) (by simp [hsplit])
      obtain ⟨program, hprogram, hsame⟩ := kept_again hkept hwalk htree henough'
      rw [hprogram]
      exact ⟨rfl, kept, I, rfl, hsame, hI⟩
  | none =>
      have h := h I hI
      cases hrun : g.anew levels' active (.library path.key) path tree [] with
      | error e J =>
          rw [hrun] at h
          obtain ⟨hJ, h⟩ := h
          refine ⟨hJ, h.imp id ?_⟩
          rintro ⟨e', I', hresolve, he, hI'⟩
          exact ⟨e', I', by dsimp only; rw [hresolve], he, hI'⟩
      | ok anew J =>
          rw [hrun] at h
          obtain ⟨rfl, program, I', hresolve, hsame, hI'⟩ := h
          refine ⟨rfl, program, (path.key, program) :: I', by dsimp only; rw [hresolve], hsame, ?_⟩
          intro entry hentry
          rcases List.mem_cons.mp hentry with rfl | hentry
          · exact ⟨levels', active, path, tree, anew, rfl, htree, hwalk.covers, hrun, hsame⟩
          · exact hI' entry hentry

/-- A session resolves a file as a resolution does that keeps nothing. -/
theorem resolveFile_alike {levels levels' : Nat} {active : List Path} {unit : FileUnit}
    {file : Path} {tree : Syntax.Program} (hwalk : g.Walk (active ++ [file]))
    (htree : g.tree? file.key = some tree) (henough : g.Enough levels (active ++ [file]))
    (henough' : g.Enough levels' (active ++ [file])) :
    LoadsAlike g.keeping (g.keeping.Via Program.rename)
      (Session.resolveFile g.files.source g.dirs levels active unit file tree)
      (g.anew levels' active unit file tree) := by
  induction levels generalizing levels' active unit file tree with
  | zero =>
      obtain ⟨fewer, hlevels⟩ := henough.positive hwalk
      cases hlevels
  | succ levels ih =>
      obtain ⟨levels', rfl⟩ := henough'.positive hwalk
      unfold anew
      rw [Session.resolveFile_eq, Session.resolveAnew_eq]
      have hcontexts : g.keeping.Contexts
          (Session.context g.files.source g.dirs active unit file
            (Session.importKept g.files.source g.dirs (levels + 1) (active ++ [file])))
          (Session.context g.files.source g.dirs active unit file
            (Session.importAnew g.files.source g.dirs (levels' + 1) (active ++ [file]))) :=
        ⟨rfl, rfl, rfl⟩
      refine file_alike hcontexts tree fun name hname site site' hsite => ?_
      refine importNamed_agrees (by rfl) (by rfl) hsite fun path hpath => ?_
      have hedge : g.Edge file.key path.key := (edge_iff htree).mpr ⟨name, hname, path, hpath, rfl⟩
      cases hactive : (active ++ [file]).any fun other => other.same path with
      | true => exact .cycle hactive hactive rfl
      | false =>
          have hnew := any_same_eq_false_iff.mp hactive
          have hwalk' := hwalk.snoc hedge hnew
          obtain ⟨tree', htree', hload⟩ := load_of_target hpath
          have htree'' := (hwalk.covers path.key hnew).trans htree'
          refine .program hactive hactive ?_
          refine LoadsAlike.congr (fun _ _ => rfl) (congrFun (importAnew_eq hload) []) ?_
          exact found_alike hwalk' htree'' hload (henough'.snoc path) rfl
            (ih hwalk' htree'' (henough.snoc path) (henough'.snoc path))

end ImportGraph

end ByteJump
