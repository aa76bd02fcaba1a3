import Mathlib.Logic.Equiv.Basic
import ByteJump.Compile
import ByteJump.Proofs.Respelling.Emission
import ByteJump.Proofs.Respelling.Statements

set_option autoImplicit false

/-!
# Names and places aside

What a file compiles to depends on which declaration each name means, and not on how names are
spelled or where anything stands.  Respelled, a file on its own has the same image with the same
counts; if it has none, the fault is of the same kind.

The two halves of compilation were compared under a respelling one by one: resolving, for a file
on its own, and generating, for any program.  Here they are joined.  `Alone` asks that the import
statements of the file find nothing, or the file itself, since what another file spells is not
respelled with it.
-/

namespace ByteJump

namespace Compiler

/-- Two compilers that see the same files, whatever these hold. -/
structure Alike (c d : Compiler) : Prop where
  searchPaths : c.searchPaths = d.searchPaths
  contains : c.source.contains = d.source.contains
  identity : c.source.identity = d.source.identity

/-- A file on its own: an import statement in it finds nothing, or the file itself. -/
def Alone (c : Compiler) (tree : Syntax.Program) (file : Path) : Prop :=
  ∀ name ∈ Syntax.Stmt.listImports tree, ∀ path,
    c.source.target c.searchPaths name = some path → (c.source.identity path).key = file.key

variable {c d : Compiler} {r : Respelling} {tree tree' : Syntax.Program} {file : Path}

/-- A compiler is like itself. -/
theorem Alike.refl (c : Compiler) : c.Alike c := ⟨rfl, rfl, rfl⟩

theorem Alike.symm (h : c.Alike d) : d.Alike c :=
  ⟨h.searchPaths.symm, h.contains.symm, h.identity.symm⟩

/-- A file that is alone for one compiler is so for the other. -/
theorem Alone.of_alike (h : c.Alone tree file) (hcd : c.Alike d)
    (himports : Syntax.Stmt.listImports tree' = Syntax.Stmt.listImports tree) :
    d.Alone tree' file := by
  unfold Alone FileSource.target at h ⊢
  rw [himports, ← hcd.searchPaths, ← hcd.contains, ← hcd.identity]
  exact h

/-- The file is resolved to the respelled program, or with the same kind of fault. -/
theorem resolve_respell (hr : r.Faithful) (hcd : c.Alike d) (halone : c.Alone tree file) :
    Mirrors (Program.respell r) (c.resolve tree file)
      (d.resolve (Syntax.Stmt.respellList r tree) file) := by
  unfold resolve
  rw [Session.resolve_fst, Session.resolve_fst, Session.resolveFile_eq, Session.resolveFile_eq]
  have hcontexts (load load' : Path → Resolve.Loading Program) :
      (Session.context c.source c.searchPaths [] (.main 0) file load).Alike
        (Session.context d.source d.searchPaths [] (.main 0) file load') :=
    ⟨rfl, rfl, rfl, hcd.searchPaths, rfl, hcd.contains, hcd.identity⟩
  refine Resolve.file_mirrors hr (hcontexts _ _) tree ?_ []
  intro name hname path hpath
  exact any_same_iff.mpr (List.mem_singleton.mpr (halone name hname path hpath))

/-- Respelled by a function of the names and of the spans. -/
theorem compileTree_mirrors (hr : r.Faithful) (hcd : c.Alike d) (halone : c.Alone tree file) :
    Mirrors id (c.compileTree tree file) (d.compileTree (Syntax.Stmt.respellList r tree) file) :=
  (resolve_respell hr hcd halone).bind fun program => Emit.generate_respell hr program .none

/-- Two files on their own whose names mean the same declarations, with all parts at any places, have
the same image with the same counts, or neither has one and the faults are of the same kind. -/
theorem compileTree_respells (hr : r.Faithful) (hcd : c.Alike d) (halone : c.Alone tree file)
    (hrespells : Syntax.Respells r tree tree') :
    (d.compileTree tree' file).mapError Fault.kind =
      (c.compileTree tree file).mapError Fault.kind := by
  have hflat : Mirrors id (c.compileTree tree file)
      (c.compileTree (Syntax.Stmt.respellList r.flat tree) file) :=
    compileTree_mirrors hr.flat (.refl c) halone
  have himports : Syntax.Stmt.listImports tree' = Syntax.Stmt.listImports tree := by
    have h := congrArg Syntax.Stmt.listImports hrespells
    rwa [Syntax.Stmt.listImports_respell, Syntax.Stmt.listImports_respell] at h
  have hflat' : Mirrors id (d.compileTree tree' file)
      (c.compileTree (Syntax.Stmt.respellList Respelling.same.flat tree') file) :=
    compileTree_mirrors Respelling.same_faithful.flat hcd.symm (halone.of_alike hcd himports)
  rw [← hflat'.kind, ← hflat.kind, hrespells]

/-- Names of each kind swapped in a file with a block, a loop and a jump, all parts moved. -/
theorem compileTree_respells_swapped :
    let r : Respelling := ⟨Equiv.swap "x" "y", Equiv.swap "f" "_f", Equiv.swap "S" "T",
      Equiv.swap "a" "b", id⟩
    let here : Span := ⟨⟨1, 2⟩, ⟨3, 4⟩⟩
    let tree : Syntax.Program :=
      [.mk [] (.struct ⟨"S", .zero⟩ [⟨"a", .named "n64" .zero, .zero⟩]) .zero,
        .mk [⟨"_start", true, .zero⟩] (.define ⟨"x", .zero⟩ (.int 1 .zero)) .zero,
        .mk [⟨"f", false, .zero⟩] (.block
          [.mk [] (.define ⟨"y", .zero⟩ (.variable "x" .zero)) .zero,
            .mk [] (.loop (.variable "y" .zero) (.mk [] (.goto (.label "f" .zero) []) .zero) true)
              .zero]) .zero]
    let tree' : Syntax.Program :=
      [.mk [] (.struct ⟨"T", here⟩ [⟨"b", .named "n64" .zero, here⟩]) .zero,
        .mk [⟨"_start", true, .zero⟩] (.define ⟨"y", here⟩ (.int 1 here)) .zero,
        .mk [⟨"_f", false, here⟩] (.block
          [.mk [] (.define ⟨"x", .zero⟩ (.variable "y" here)) .zero,
            .mk [] (.loop (.variable "x" here) (.mk [] (.goto (.label "_f" .zero) []) here) true)
              .zero]) .zero]
    let c : Compiler := ⟨MemoryFiles.source [(⟨"main"⟩, tree)], [⟨""⟩]⟩
    let d : Compiler := ⟨MemoryFiles.source [(⟨"main"⟩, tree')], [⟨""⟩]⟩
    r.Faithful ∧ c.Alike d ∧ c.Alone tree ⟨"main"⟩ ∧ Syntax.Respells r tree tree' ∧
      (c.compileTree tree ⟨"main"⟩).isOk = true ∧
      (d.compileTree tree' ⟨"main"⟩).mapError Fault.kind =
        (c.compileTree tree ⟨"main"⟩).mapError Fault.kind := by
  intro r here tree tree' c d
  have hentry (name : String) : Emit.namesEntry (r.label name) = Emit.namesEntry name := by
    show Emit.namesEntry (Equiv.swap "f" "_f" name) = _
    rw [Equiv.swap_apply_def]
    split
    · rename_i h
      rw [h]
      decide +kernel
    split
    · rename_i h
      rw [h]
      decide +kernel
    · rfl
  have hr : r.Faithful := ⟨Equiv.injective _, Equiv.injective _, Equiv.injective _,
    Equiv.injective _, hentry, fun size => by cases size <;> decide +kernel, by decide +kernel,
    by decide +kernel⟩
  have hcd : c.Alike d := ⟨rfl, by
    funext path
    show (MemoryFiles.find? _ path).isSome = (MemoryFiles.find? _ path).isSome
    unfold MemoryFiles.find?
    simp only [Option.isSome_map, List.find?_cons, List.find?_nil]
    split <;> rfl, rfl⟩
  have halone : c.Alone tree ⟨"main"⟩ := by
    intro name hname
    exact absurd hname List.not_mem_nil
  have hrespells : Syntax.Respells r tree tree' := by rfl
  exact ⟨hr, hcd, halone, hrespells, by decide +kernel,
    compileTree_respells hr hcd halone hrespells⟩

end Compiler

end ByteJump
