import ByteJump.Proofs.Lexical.Statements
import ByteJump.Proofs.Lexical.Typed

set_option autoImplicit false

/-!
# Lexical scoping

Resolving a file gives what elaborating it with one environment gives, with the uses of labels bound
to what their names mean in the blocks around them.

Elaborating threads one environment of types and variables through the statements, as a reader of the
file would, and says nothing of scopes.  Labels are put aside there (`Stmt.listMapUses .loose`): they
may be used in front of their declarations, so what a use means is a matter of the whole file.
`Stmt.fileOccurrences` finds it from the blocks of the elaborated statements alone.
-/

namespace ByteJump

/-- The uses of labels in statements with the labels that they are bound to. -/
def Stmt.boundOccurrences (ss : List Stmt) : List Occurrence :=
  (Stmt.listUses ss).map fun use => ⟨use.1.name, use.2, use.1.target⟩

/-! ## Files without the meaning of labels -/

namespace Resolve

theorem models_ofBuiltins (b : Builtins) : Models (.ofBuiltins b) (.builtin b) := by
  refine ⟨fun name => ?_, fun name => rfl⟩
  have hframe : (Scopes.ofBuiltins b).frames[0]? = some ⟨b.named, [], [], [0]⟩ := rfl
  show (Scopes.ofBuiltins b).findIn Scopes.Frame.types [0] name = b.named.lookup name
  unfold Scopes.findIn
  rw [List.findSome?_cons, hframe]
  dsimp only
  cases b.named.lookup name <;> rfl

/-- Before its labels are bound, a file has the elaborated statements, with each use of a label in
the scope of its block, and scopes that say of labels what the blocks say. -/
theorem openFile_numbers (c : Context) (tree : Syntax.Program) (I : Imports) :
    match Elaborate.file c tree I with
    | .ok (ss, tally) J => ∃ s : State,
        openFile c tree (.start c.builtins) I = .ok (Stmt.listNumber 0 1 ss, s) J ∧
          s.tally = tally ∧ Stmt.listMapUses .loose ss = ss ∧
          (Stmt.listUses (Stmt.listNumber 0 1 ss)).map s.scopes.occurrence =
            Stmt.fileOccurrences ss
    | .error e J => openFile c tree (.start c.builtins) I = .error e J := by
  have hfollows : Follows (stmts c 0 tree) (Elaborate.stmts c 0 (.builtin c.builtins) tree) _
      (.start c.builtins) I :=
    stmts_follow 0 tree (Scopes.ok_ofBuiltins _) (models_ofBuiltins _)
  unfold Follows at hfollows
  rw [Elaborate.file_run]
  rw [show (State.start c.builtins).tally = ⟨0, .none, .default⟩ from rfl] at hfollows
  cases hrun : Elaborate.stmts c 0 (.builtin c.builtins) tree ⟨0, .none, .default⟩ I with
  | error e J =>
      rw [hrun] at hfollows
      exact hfollows
  | ok done J =>
      rw [hrun] at hfollows
      obtain ⟨rs, s, hopen, htally, rfl, hloose, hpasses⟩ := hfollows
      refine ⟨s, hopen, htally, hloose, ?_⟩
      obtain ⟨change, new, hchange, hframes, hnew⟩ := hpasses.evolves.frames
      have houtlines : s.scopes.outlines =
          ⟨Label.table (Stmt.listBlockLabels done.1.1), [0]⟩ :: Stmt.listScopes [0] 1 done.1.1 := by
        rw [Scopes.outlines, hframes, List.map_append, hnew]
        show (change _).outline :: _ = _
        rw [hchange, List.append_nil]
        rfl
      have hfirst : s.scopes.outlines[0]? =
          some ⟨Label.table (Stmt.listBlockLabels done.1.1), [0]⟩ := by rw [houtlines]; rfl
      have hchain : s.scopes.chain 0 = [0] := Scopes.chain_of_outline hfirst
      refine Stmt.listOccurrences_number done.1.1
        [⟨Label.table (Stmt.listBlockLabels done.1.1), [0]⟩] [] (.outermost hfirst) ?_
      rw [houtlines, hchain, List.append_nil]
      rfl

/-- A file is its elaborated statements with the uses of labels bound, unless one of them has no
meaning. -/
theorem file_binds (c : Context) (tree : Syntax.Program) (I : Imports) :
    match Elaborate.file c tree I with
    | .ok (ss, tally) J =>
        match (Stmt.fileOccurrences ss).find? fun use => use.label.isNone with
        | some use => file c tree I = .error (.unresolvedLabel use.name use.site) J
        | none => ∃ bound, file c tree I = .ok (.mk c.file bound tally.exports tally.pragmas) J ∧
            Stmt.listMapUses .loose bound = ss ∧
            Stmt.boundOccurrences bound = Stmt.fileOccurrences ss
    | .error e J => file c tree I = .error e J := by
  have hopen := openFile_numbers c tree I
  have hrun : file c tree I = _ := file_run c tree I
  unfold openFile at hopen
  cases helaborate : Elaborate.file c tree I with
  | error e J =>
      rw [helaborate] at hopen
      rw [hrun, hopen]
  | ok done J =>
      rw [helaborate] at hopen
      obtain ⟨ss, tally⟩ := done
      obtain ⟨s, hstmts, rfl, hloose, huses⟩ := hopen
      have hfind : (Stmt.fileOccurrences ss).find? (fun use => use.label.isNone) =
          ((Stmt.listUses (Stmt.listNumber 0 1 ss)).find? fun use =>
            (s.scopes.findLabel use.1.scope use.1.name).isNone).map s.scopes.occurrence := by
        rw [← huses, List.find?_map]
        rfl
      rw [hrun, hstmts]
      dsimp only
      rw [Stmt.bindList_eq, LabelFinder.settle, hfind]
      unfold LabelFinder.label?
      cases (Stmt.listUses (Stmt.listNumber 0 1 ss)).find? fun use =>
          (s.scopes.findLabel use.1.scope use.1.name).isNone with
      | some use => rfl
      | none =>
          refine ⟨_, rfl, ?_, ?_⟩
          · rw [Stmt.listMapUses_listMapUses]
            exact (Stmt.loose_listNumber ss 0 1).trans hloose
          · rw [Stmt.boundOccurrences, Stmt.listUses_listMapUses, List.map_map]
            exact huses

/-! ## Names of types and variables -/

/-- Names of types and variables obey lexical scoping.  If a check of the elaboration fails, its fault
is that of the file.  If none fails, the expressions have the types that the rules give them, and the
file fails only for a use of a label that has no meaning in the blocks around it, with the first such
use as its fault.  Without one it is resolved to what it is elaborated to, with each use of a label
bound to what it means, shows the same to other files and has the same settings. -/
theorem file_elaborates (c : Context) (tree : Syntax.Program) (I : Imports) :
    match Elaborate.file c tree I with
    | .ok (ss, tally) J => Stmt.ListTyped c.builtins ss ∧
        match (Stmt.fileOccurrences ss).find? fun use => use.label.isNone with
        | some use => file c tree I = .error (.unresolvedLabel use.name use.site) J
        | none => ∃ p, file c tree I = .ok p J ∧ p.file = c.file ∧
            Stmt.listMapUses .loose p.statements = ss ∧
            Stmt.boundOccurrences p.statements = Stmt.fileOccurrences ss ∧
            p.exports = tally.exports ∧ p.pragmas = tally.pragmas
    | .error e J => file c tree I = .error e J := by
  have hbinds := file_binds c tree I
  cases hrun : Elaborate.file c tree I with
  | error e J =>
      rw [hrun] at hbinds
      exact hbinds
  | ok done J =>
      rw [hrun] at hbinds
      obtain ⟨ss, tally⟩ := done
      refine ⟨Elaborate.file_typed hrun, ?_⟩
      dsimp only at hbinds ⊢
      split at hbinds
      · exact hbinds
      · obtain ⟨bound, hfile, hloose, huses⟩ := hbinds
        exact ⟨_, hfile, rfl, hloose, huses, rfl, rfl⟩

/-! ## Labels -/

/-- Uses of labels bind lexically across the whole file.  If everything else in a file resolves, each
use is bound to the last declaration of its name in the innermost block around it that declares the
name, be it before or behind the use; and if some use has no such declaration, the first of them is
the fault.  If something else fails, that is the fault. -/
theorem file_bindsLabels (c : Context) (tree : Syntax.Program) (I : Imports) :
    (∀ e J, Elaborate.file c tree I = .error e J → file c tree I = .error e J) ∧
      ∀ ss tally J, Elaborate.file c tree I = .ok (ss, tally) J →
        ((∀ use ∈ Stmt.fileOccurrences ss, use.label.isSome) →
          ∃ p, file c tree I = .ok p J ∧ Stmt.listMapUses .loose p.statements = ss ∧
            Stmt.boundOccurrences p.statements = Stmt.fileOccurrences ss) ∧
        ∀ front use back, Stmt.fileOccurrences ss = front ++ use :: back →
          (∀ other ∈ front, other.label.isSome) → use.label = none →
            file c tree I = .error (.unresolvedLabel use.name use.site) J := by
  have hbinds := file_binds c tree I
  refine ⟨fun e J hrun => ?_, fun ss tally J hrun => ⟨fun hall => ?_, ?_⟩⟩
  · rw [hrun] at hbinds
    exact hbinds
  · rw [hrun] at hbinds
    have hnone : (Stmt.fileOccurrences ss).find? (fun use => use.label.isNone) = none := by
      rw [List.find?_eq_none]
      intro use huse
      rw [Option.isNone_iff_eq_none, ← ne_eq, ← Option.isSome_iff_ne_none]
      exact hall use huse
    dsimp only at hbinds
    rw [hnone] at hbinds
    obtain ⟨bound, hfile, hloose, huses⟩ := hbinds
    exact ⟨_, hfile, hloose, huses⟩
  · intro front use back hsplit hfront huse
    rw [hrun] at hbinds
    have hsome : (Stmt.fileOccurrences ss).find? (fun use => use.label.isNone) = some use := by
      rw [hsplit, List.find?_append, List.find?_eq_none.mpr, Option.none_or, List.find?_cons, huse]
      · rfl
      · intro other hother
        rw [Option.isNone_iff_eq_none, ← ne_eq, ← Option.isSome_iff_ne_none]
        exact hfront other hother
    dsimp only at hbinds
    rw [hsome] at hbinds
    exact hbinds

end Resolve

end ByteJump
