import ByteJump.Proofs.Anew
import ByteJump.Proofs.Resolve.Sound

set_option autoImplicit false

/-!
# Resolved programs are sound

Every file that a session resolves is in order, whatever the session resolved before and wherever
its files come from.  This is all that generating code needs to know about resolution.

The walk over one file is done elsewhere, under the hypothesis that the imports of the file
deliver.  Here the hypothesis is discharged: `resolveFile_sound` goes by induction on the levels
of imports that are left, each file being resolved with one level less than the file that imports
it.  `afterMains_keeps` is the induction over a session in its general form, for any property of
the kept imports that resolving keeps; other modules use it with properties of their own.
-/

namespace ByteJump

open Resolve

/-- One more import that is in order keeps all of them in order. -/
theorem Resolve.Imports.Sound.cons {active : List Path} {I : Imports} {path : Path} {p : Program}
    (hsound : I.Sound) (hnew : I.lookup path.key = none) (hactive : path.key ∉ active.map Path.key)
    (hp : p.Sound I) (hfile : p.file = path) :
    Imports.Sound ((path.key, p) :: I) ∧ I.Extends active ((path.key, p) :: I) := by
  have hother : ∀ key, key ≠ path.key → List.lookup key ((path.key, p) :: I) = I.lookup key := by
    intro key hkey
    rw [List.lookup_cons, beq_false_of_ne hkey]
  have hextends : I.Extends active ((path.key, p) :: I) := by
    refine ⟨fun key q hq => ?_, fun key hkey => hother key fun heq => hactive (heq ▸ hkey)⟩
    have hne : key ≠ path.key := by
      rintro rfl
      rw [hnew] at hq
      cases hq
    rw [hother key hne]
    exact hq
  refine ⟨fun key q hq => ?_, hextends⟩
  by_cases hkey : key = path.key
  · rw [hkey, List.lookup_cons_self] at hq
    cases hq
    exact ⟨by rw [hkey, hfile], hextends.sound hp⟩
  · rw [hother key hkey] at hq
    exact ⟨(hsound key q hq).1, hextends.sound (hsound key q hq).2⟩

namespace Session

variable {source : FileSource} {dirs : List Path}

/-- A session resolves files in order, and the imports it keeps stay in order. -/
theorem resolveFile_sound (levels : Nat) (active : List Path) (unit : FileUnit) (file : Path)
    (tree : Syntax.Program) {I : Imports} (hsound : I.Sound) :
    match resolveFile source dirs levels active unit file tree I with
    | .ok p J => p.file = file ∧ p.Sound J ∧ J.Sound ∧ I.Extends (active ++ [file]) J
    | .error _ J => J.Sound ∧ I.Extends (active ++ [file]) J := by
  induction levels generalizing active unit file tree I with
  | zero =>
      rw [resolveFile_eq]
      refine file_sound (fun path I hI _ _ => ?_) tree hsound
      exact ⟨hI, Imports.Extends.refl _ _⟩
  | succ levels ih =>
      rw [resolveFile_eq]
      refine file_sound (fun path I hI hnew hactive => ?_) tree hsound
      show match importKept source dirs (levels + 1) (active ++ [file]) path I with
        | .ok p J => J.Sound ∧ I.Extends (active ++ [file]) J ∧ J.lookup path.key = some p
        | .error _ J => J.Sound ∧ I.Extends (active ++ [file]) J
      rw [importKept_run]
      cases source.load path with
      | error e => exact ⟨hI, .refl _ _⟩
      | ok tree' =>
          have hpath := ih (active ++ [file]) (.library path.key) path tree' hI
          have hfewer : ∀ J, I.Extends (active ++ [file] ++ [path]) J →
              I.Extends (active ++ [file]) J := by
            intro J hJ
            refine ⟨hJ.kept, fun key hkey => hJ.active key ?_⟩
            rw [List.map_append]
            exact List.mem_append_left _ hkey
          dsimp only
          cases hresolve : resolveFile source dirs levels (active ++ [file]) (.library path.key)
              path tree' I with
          | error e J =>
              rw [hresolve] at hpath
              exact ⟨hpath.1, hfewer J hpath.2⟩
          | ok p J =>
              rw [hresolve] at hpath
              obtain ⟨hfile, hp, hJ, hgrown⟩ := hpath
              have hnone : J.lookup path.key = none :=
                (hgrown.active path.key (by simp)).trans hnew
              obtain ⟨hcons, hextends⟩ := hJ.cons hnone hactive hp hfile
              exact ⟨hcons, (hfewer J hgrown).trans hextends, List.lookup_cons_self⟩

/-- The session after some main files were resolved in turn, each with its tree, failed or not. -/
def afterMains (source : FileSource) (dirs : List Path) (mains : List (Syntax.Program × Path)) :
    Session :=
  mains.foldl (fun session main => (session.resolve main.1 main.2).2) (start source dirs)

/-- What holds of no imports, and is kept by each main file, holds of the imports a session keeps. -/
theorem afterMains_keeps {P : Imports → Prop} (hstart : P [])
    (hresolve : ∀ (session : Session) (tree : Syntax.Program) (file : Path), P session.imports →
      P (session.resolve tree file).2.imports) (source : FileSource) (dirs : List Path)
    (mains : List (Syntax.Program × Path)) : P (afterMains source dirs mains).imports := by
  suffices ∀ session : Session, P session.imports →
      P (mains.foldl (fun session main => (session.resolve main.1 main.2).2) session).imports from
    this _ hstart
  induction mains with
  | nil => exact fun session h => h
  | cons main mains ih => exact fun session h => ih _ (hresolve session main.1 main.2 h)

/-- A session goes on with sound imports, whatever becomes of the file. -/
theorem resolve_sound (session : Session) (hsound : session.imports.Sound)
    (tree : Syntax.Program) (file : Path) :
    (session.resolve tree file).2.imports.Sound ∧
      ∀ p, (session.resolve tree file).1 = .ok p →
        p.Sound (session.resolve tree file).2.imports := by
  have hfile := @resolveFile_sound session.source session.searchPaths (session.source.count + 1) []
    (.main session.turn) file tree _ hsound
  refine resolve_ends (Q := fun r I => I.Sound ∧ ∀ p, r = .ok p → p.Sound I) ?_
  split <;> rename_i hrun <;> rw [hrun] at hfile
  · refine ⟨hfile.2.2.1, ?_⟩
    rintro _ ⟨⟩
    exact hfile.2.1
  · exact ⟨hfile.1, nofun⟩

/-- By induction on the mains. -/
theorem afterMains_sound (source : FileSource) (dirs : List Path)
    (mains : List (Syntax.Program × Path)) : (afterMains source dirs mains).imports.Sound :=
  afterMains_keeps (P := Imports.Sound) (fun _ _ h => nomatch h)
    (fun session tree file h => (session.resolve_sound h tree file).1) source dirs mains

end Session

end ByteJump
