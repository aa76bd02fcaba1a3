import ByteJump.Proofs.Resolve.Made

set_option autoImplicit false

/-!
# Declarations of files

A resolved file declares its labels and variables for its own unit, and so do the imports that a
session keeps.

The walk over one file gives names in its unit, if its imports have names in theirs.  Here this is
closed over the levels of imports and over the mains of a session, as for all properties that
resolving keeps.
-/

namespace ByteJump

namespace Resolve

variable {c : Context}

/-- A resolved file belongs to the unit it is resolved for, and so do all imports that are kept. -/
theorem file_named (hdelivers : c.DeliversNamed) (tree : Syntax.Program) {I : Imports}
    (hI : I.Named) :
    match file c tree I with
    | .ok p J => p.Named c.unit ∧ J.Named
    | .error _ J => J.Named := by
  refine file_ends (stmts_names hdelivers 0 tree (s := .start c.builtins)
    (Scopes.ok_ofBuiltins c.builtins) hI) (fun opened s J ss hrun hstmts hbound => ?_)
    fun _ _ _ _ hstmts _ => hstmts.imports
  have hfills := Stmt.bindList_fills s.scopes.findLabel opened
  have halike := Stmt.bindList_alike s.scopes.findLabel opened
  rw [hbound] at hfills halike
  have hlabels : Stmt.listLabels ss = Stmt.listLabels opened := hfills.ownLabels
  have hown : (Stmt.listSubs ss).flatMap Stmt.own =
      (Stmt.listSubs opened).flatMap Stmt.own := halike.own
  refine ⟨⟨fun l hl => ?_, fun x hx => ?_, ?_, ?_, fun x hx => ?_⟩, hstmts.imports⟩
  · have hl : l ∈ Stmt.listLabels ss := hl
    rw [hlabels] at hl
    exact (hstmts.labels.mem _ (List.mem_map_of_mem hl)).1
  · have hx : x ∈ (Stmt.listSubs ss).flatMap Stmt.own := hx
    rw [hown] at hx
    exact ⟨(hstmts.vars.mem _ (List.mem_map_of_mem hx)).1, hstmts.slots x hx⟩
  · show ((Stmt.listLabels ss).map _).Nodup
    rw [hlabels]
    exact hstmts.labels.nodup
  · show (((Stmt.listSubs ss).flatMap Stmt.own).map _).Nodup
    rw [hown]
    exact hstmts.vars.nodup
  · obtain ⟨st, hmem, hst⟩ := Stmt.bindList_places _ opened [] hbound x hx
    rw [← show (State.start c.builtins).scopes.visible = [] from
      Scopes.visible_ofBuiltins c.builtins] at hmem
    have hmade := stmts_made hdelivers tree (s := .start c.builtins)
      (Scopes.ok_ofBuiltins c.builtins) hI hrun _ hmem
    refine ⟨c, tree, I, J, opened, s, st, ?_, hrun, hmade, hst⟩
    rw [file_run, hrun]
    dsimp only
    rw [hbound]

/-- What is kept with one more import is the new one or was kept before. -/
theorem Imports.lookup_cons {I : Imports} {key other : Path.Key} {p q : Program}
    (h : List.lookup other ((key, p) :: I) = some q) :
    other = key ∧ q = p ∨ I.lookup other = some q := by
  by_cases hkey : other = key
  · rw [hkey, List.lookup_cons_self] at h
    exact Or.inl ⟨hkey, (Option.some.inj h).symm⟩
  · rw [List.lookup_cons, beq_false_of_ne hkey] at h
    exact Or.inr h

/-- One more import that belongs to the unit of its path. -/
theorem Imports.Named.cons {I : Imports} {path : Path} {p : Program} (hI : I.Named)
    (hp : p.Named (.library path.key)) : Imports.Named ((path.key, p) :: I) := by
  intro key q hq
  rcases Imports.lookup_cons hq with ⟨rfl, rfl⟩ | hold
  · exact hp
  · exact hI key q hold

end Resolve

namespace Session

open Resolve

variable {source : FileSource} {dirs : List Path}

/-- What a session resolves belongs to a unit of its own, and so does every import it keeps. -/
theorem resolveFile_named (levels : Nat) (active : List Path) (unit : FileUnit) (file : Path)
    (tree : Syntax.Program) {I : Imports} (hI : I.Named) :
    match resolveFile source dirs levels active unit file tree I with
    | .ok p J => p.Named unit ∧ J.Named
    | .error _ J => J.Named :=
  resolveFile_keeps (P := Imports.Named) (Q := fun unit p => p.Named unit)
    (fun _ tree _ hdelivers hI => file_named (fun path J hJ _ _ => hdelivers path J hJ) tree hI)
    Imports.Named.cons levels active unit file tree hI

/-- A session goes on with imports that have names. -/
theorem resolve_named (session : Session) (hI : session.imports.Named) (tree : Syntax.Program)
    (file : Path) : (session.resolve tree file).2.imports.Named ∧
      ∀ p, (session.resolve tree file).1 = .ok p → p.Named (.main session.turn) := by
  have hfile := @resolveFile_named session.source session.searchPaths (session.source.count + 1) []
    (.main session.turn) file tree _ hI
  refine resolve_ends (Q := fun r I => I.Named ∧ ∀ p, r = .ok p → p.Named (.main session.turn)) ?_
  split <;> rename_i hrun <;> rw [hrun] at hfile
  · refine ⟨hfile.2, ?_⟩
    rintro _ ⟨⟩
    exact hfile.1
  · exact ⟨hfile, nofun⟩

/-- By induction on the mains. -/
theorem afterMains_named (source : FileSource) (dirs : List Path)
    (mains : List (Syntax.Program × Path)) : (afterMains source dirs mains).imports.Named :=
  afterMains_keeps (P := Imports.Named) (fun _ _ h => nomatch h)
    (fun session tree file h => (session.resolve_named h tree file).1) source dirs mains

end Session

end ByteJump
