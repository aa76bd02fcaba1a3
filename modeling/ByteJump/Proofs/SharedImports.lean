import Mathlib.Data.List.Nodup
import Mathlib.Logic.Relation
import ByteJump.Proofs.Lexical.Growth
import ByteJump.Proofs.Resolve.Carries
import ByteJump.Proofs.ResolvedProgram
import ByteJump.Proofs.SamePaths
import ByteJump.Proofs.TypeIdentity

set_option autoImplicit false

/-!
# Shared imports

A session resolves a file that is imported once.  All import statements that mean the file carry the
program that was made of it then, in whatever files they stand and whatever becomes of the file
later, so a struct or a label means one declaration by whatever route it is imported.

A turn of a session resolves one main file with the files as they are at the time.  Between turns
files may change, but the components of a path that is chosen must still decide which file it
stands for, which is what `Turn.Agree` asks for.  It holds of files in memory and of files on disk
that keep their places.  The invariant is `Imports.Closed`: entries have different keys, each is
kept under the path of its file, and the files it imports are kept further back.  A turn only adds
entries in front, so an entry is never replaced, and an import statement of any turn carries the
entry that is kept in the end.  From the program it carries one can tell what the names of the
importing file mean. -/

namespace ByteJump

open Resolve

/-! ## Names behind an import

An import defines the exported structs and labels in the open scope, one after the other.  As
their names are distinct, each of them is found, whichever was defined last. -/

namespace Scopes

variable {s : Scopes}

theorem findLabel_defineLabel (hs : s.Ok) (label : Label) (name : String) :
    (s.defineLabel label).findLabel (s.defineLabel label).current name =
      if name = label.name then some label else s.findLabel s.current name := by
  show (s.modify _).findOpen Frame.labels name = _
  refine findOpen_declare hs ?_ ?_ <;> exact fun _ => rfl

theorem ok_foldr_defineType (hs : s.Ok) (structs : List StructDef) :
    (structs.foldr (fun d s => s.defineType d.name d.type) s).Ok := by
  induction structs with
  | nil => exact hs
  | cons d structs ih => exact (grown_defineType ih d.name d.type).ok

theorem ok_foldr_defineLabel (hs : s.Ok) (labels : List Label) :
    (labels.foldr (fun label s => s.defineLabel label) s).Ok := by
  induction labels with
  | nil => exact hs
  | cons label labels ih => exact (grown_defineLabel ih label).ok

theorem findType_foldr_defineType (hs : s.Ok) {structs : List StructDef}
    (hnodup : (structs.map StructDef.name).Nodup) {d : StructDef} (hd : d ∈ structs) :
    (structs.foldr (fun d s => s.defineType d.name d.type) s).findType d.name = some d.type := by
  induction structs with
  | nil => cases hd
  | cons first rest ih =>
      rw [List.foldr_cons, findType_defineType (ok_foldr_defineType hs rest)]
      rw [List.map_cons, List.nodup_cons] at hnodup
      rcases List.mem_cons.mp hd with rfl | hrest
      · rw [if_pos rfl]
      · have hne : d.name ≠ first.name := fun heq =>
          hnodup.1 (heq ▸ List.mem_map_of_mem hrest)
        rw [if_neg hne]
        exact ih hnodup.2 hrest

/-- Labels do not hide types. -/
theorem findType_foldr_defineLabel (labels : List Label) (name : String) :
    (labels.foldr (fun label s => s.defineLabel label) s).findType name = s.findType name := by
  induction labels with
  | nil => rfl
  | cons label labels ih => exact (findType_defineLabel label name).trans ih

/-- By induction on the labels; later ones have other names. -/
theorem findLabel_foldr_defineLabel (hs : s.Ok) {labels : List Label}
    (hnodup : (labels.map Label.name).Nodup) {label : Label} (hlabel : label ∈ labels) :
    (labels.foldr (fun label s => s.defineLabel label) s).findLabel
      (labels.foldr (fun label s => s.defineLabel label) s).current label.name = some label := by
  induction labels with
  | nil => cases hlabel
  | cons first rest ih =>
      rw [List.foldr_cons, findLabel_defineLabel (ok_foldr_defineLabel hs rest)]
      rw [List.map_cons, List.nodup_cons] at hnodup
      rcases List.mem_cons.mp hlabel with rfl | hrest
      · rw [if_pos rfl]
      · have hne : label.name ≠ first.name := fun heq =>
          hnodup.1 (heq ▸ List.mem_map_of_mem hrest)
        rw [if_neg hne]
        exact ih hnodup.2 hrest

/-- Behind an import the names of the structs that it exports mean these. -/
theorem findType_merged (hs : s.Ok) {x : Exports} (hx : x.Distinct) {d : StructDef}
    (hd : d ∈ x.structs) : (merged x s).findType d.name = some d.type := by
  rw [merged, findType_foldr_defineLabel]
  exact findType_foldr_defineType hs hx.structs hd

/-- Behind an import the names of the labels that it exports mean these. -/
theorem findLabel_merged (hs : s.Ok) {x : Exports} (hx : x.Distinct) {label : Label}
    (hlabel : label ∈ x.labels) :
    (merged x s).findLabel (merged x s).current label.name = some label :=
  findLabel_foldr_defineLabel (ok_foldr_defineType hs x.structs) hx.labels hlabel

end Scopes

/-- Two import statements carry one program.  Whichever of them a file comes by, and in whatever
scope, the names of what it exports mean the same declarations, and operands that have one of its
struct types by the one and by the other pass the check of types. -/
structure Program.Shared (p q : Program) : Prop where
  same : p = q
  types : ∀ d ∈ p.exports.structs, ∀ s t : Scopes, s.Ok → t.Ok →
    (merged p.exports s).findType d.name = some d.type ∧
      (merged q.exports t).findType d.name = some d.type
  labels : ∀ label ∈ p.exports.labels, ∀ s t : Scopes, s.Ok → t.Ok →
    (merged p.exports s).findLabel (merged p.exports s).current label.name = some label ∧
      (merged q.exports t).findLabel (merged q.exports t).current label.name = some label
  operands : ∀ d ∈ p.exports.structs, ∀ d' ∈ q.exports.structs, d.name = d'.name →
    ∀ (c : Context) (op : BinaryOp) (left right : Syntax.Expr) (span : Span) (l r : Expr)
      (s : State) (I : Resolve.Imports), expr c left s I = .ok (l, s) I →
      expr c right s I = .ok (r, s) I → l.type = d.type → r.type = d'.type →
      expr c (.binary op left right span) s I =
        .ok (.binary op l r ⟨d.type, c.locate span⟩, s) I

theorem Program.shared_self {p : Program} (hp : p.exports.Distinct) : p.Shared p where
  same := rfl
  types _ hd _ _ hs ht := ⟨Scopes.findType_merged hs hp hd, Scopes.findType_merged ht hp hd⟩
  labels _ hl _ _ hs ht := ⟨Scopes.findLabel_merged hs hp hl, Scopes.findLabel_merged ht hp hl⟩
  operands d hd d' hd' hname c op left right span l r s I hleft hright hl hr := by
    obtain rfl : d = d' := List.inj_on_of_nodup_map hp.structs hd hd' hname
    rw [expr_binary hleft hright (hl.trans hr.symm), hl]

/-! ## Entries -/

namespace Resolve

variable {source : FileSource} {dirs : List Path} {active : List Path.Key} {I J : Imports}

/-- Files have different keys, each is kept under its own, and when it was kept its imports were
kept already. -/
structure Imports.Closed (I : Imports) : Prop where
  nodup : (I.map Prod.fst).Nodup
  entries : ∀ newer key p older, I = newer ++ (key, p) :: older →
    p.file.key = key ∧ p.exports.Distinct ∧ ∀ q ∈ p.files, (q.file.key, q) ∈ older

theorem Imports.Closed.nil : Imports.Closed [] := ⟨.nil, by simp⟩

/-- An entry is kept under the path of its file. -/
theorem Imports.Closed.entry (h : I.Closed) {key : Path.Key} {p : Program} (hp : (key, p) ∈ I) :
    p.file.key = key ∧ p.exports.Distinct := by
  obtain ⟨newer, older, hI⟩ := List.append_of_mem hp
  exact ⟨(h.entries newer key p older hI).1, (h.entries newer key p older hI).2.1⟩

theorem mem_of_lookup {key : Path.Key} {p : Program} (hp : I.lookup key = some p) :
    (key, p) ∈ I := by
  obtain ⟨newer, older, hI, -⟩ := List.lookup_eq_some_iff.mp hp
  rw [hI]
  exact List.mem_append_right _ List.mem_cons_self

/-- As keys are distinct, a look-up finds the entry. -/
theorem Imports.Closed.lookup (h : I.Closed) {key : Path.Key} {p : Program} (hp : (key, p) ∈ I) :
    I.lookup key = some p := by
  cases hlookup : I.lookup key with
  | none => exact absurd rfl (bne_iff_ne.mp (List.lookup_eq_none_iff.mp hlookup _ hp))
  | some q =>
      have heq := List.inj_on_of_nodup_map h.nodup (mem_of_lookup hlookup) hp rfl
      rw [(Prod.mk.injEq ..).mp heq |>.2]

theorem mem_files_carried {names : List String} {files : List Program}
    (hfiles : List.Forall₂ (source.Carries dirs I) names files) {q : Program} (hq : q ∈ files) :
    ∃ key, (key, q) ∈ I := by
  induction hfiles with
  | nil => cases hq
  | cons hfirst _ ih =>
      rcases List.mem_cons.mp hq with rfl | hrest
      · obtain ⟨path, -, hlookup⟩ := hfirst
        exact ⟨_, mem_of_lookup hlookup⟩
      · exact ih hrest

/-- Each step adds a file whose imports are there. -/
theorem Imports.Closed.gains (h : I.Closed) (hgains : I.Gains source dirs active J) :
    J.Closed := by
  induction hgains with
  | nothing => exact h
  | @file J path tree p before new idle path_eq load exports carries ih =>
      refine ⟨(Imports.Gains.file before new idle path_eq load exports carries).nodup h.nodup, ?_⟩
      intro newer key q older heq
      cases newer with
      | nil =>
          cases heq
          refine ⟨by rw [path_eq], exports, fun r hr => ?_⟩
          obtain ⟨key, hkey⟩ := mem_files_carried carries hr
          rw [(ih.entry hkey).1]
          exact hkey
      | cons first newer =>
          cases heq
          exact ih.entries newer key q older rfl

/-- A file that was not kept before was loaded, and its import statements carry what is kept. -/
theorem Imports.Gains.origin (h : I.Gains source dirs active J) {key : Path.Key} {p : Program}
    (hnew : (key, p) ∉ I) (hp : (key, p) ∈ J) :
    ∃ tree, source.load p.file = .ok tree ∧
      List.Forall₂ (source.Carries dirs J) (Syntax.Stmt.listImports tree) p.files := by
  induction h with
  | nothing => exact absurd hp hnew
  | @file J path tree q before new idle path_eq load exports carries ih =>
      have hlast : Imports.Gains source dirs active J ((path.key, q) :: J) :=
        .file .nothing new idle path_eq load exports carries
      rcases List.mem_cons.mp hp with heq | hp
      · cases heq
        exact ⟨tree, path_eq ▸ load, hlast.allCarry carries⟩
      · obtain ⟨tree', hload, hcarries⟩ := ih hp
        exact ⟨tree', hload, hlast.allCarry hcarries⟩

/-- All that a kept file imports, perhaps through others, was kept before it. -/
theorem Imports.Closed.reaches (h : I.Closed) {newer older : Imports} {key : Path.Key}
    {p q : Program} (hI : I = newer ++ (key, p) :: older)
    (hreaches : Relation.TransGen (fun p q : Program => q ∈ p.files) p q) :
    (q.file.key, q) ∈ older := by
  induction hreaches with
  | single hq => exact (h.entries newer key p older hI).2.2 _ hq
  | @tail q r _ hr ih =>
      obtain ⟨between, oldest, holder⟩ := List.append_of_mem ih
      have hmem := (h.entries (newer ++ (key, p) :: between) q.file.key q oldest
        (by rw [hI, holder]; simp)).2.2 r hr
      rw [holder]
      exact List.mem_append_right _ (List.mem_cons_of_mem _ hmem)

end Resolve

/-! ## Turns -/

/-- A turn of a session: a main file, and where the files that it imports come from by then. -/
structure Turn where
  source : FileSource
  tree : Syntax.Program
  file : Path

/-- Whenever in a session a path is chosen, its components decide which file it stands for. -/
def Turn.Agree (turns : List Turn) : Prop :=
  ∀ a ∈ turns, ∀ b ∈ turns, a.source.Agrees b.source

/-- In memory, a path is what it is whatever the files hold. -/
theorem Turn.agree_memory (turns : List Turn)
    (h : ∀ turn ∈ turns, ∃ files : MemoryFiles, turn.source = files.source) :
    Turn.Agree turns := by
  intro a ha b hb
  obtain ⟨files, hfiles⟩ := h a ha
  obtain ⟨others, hothers⟩ := h b hb
  rw [hfiles, hothers]
  exact MemoryFiles.agrees files others

/-- On one file tree all turns go by the same directories and links. -/
theorem Turn.agree_tree (turns : List Turn) (tree : FileTree)
    (h : ∀ turn ∈ turns, turn.source = tree.source) : Turn.Agree turns := by
  intro a ha b hb
  rw [h a ha, h b hb]
  exact FileTree.agrees tree

namespace Session

variable {source : FileSource} {dirs : List Path}

/-- A file that is resolved adds to the imports what it has to, and its import statements carry what
is kept then. -/
theorem resolveFile_gains (levels : Nat) (active : List Path) (unit : FileUnit) (file : Path)
    (tree : Syntax.Program) (I : Imports) :
    match resolveFile source dirs levels active unit file tree I with
    | .ok p J => I.Gains source dirs ((active ++ [file]).map Path.key) J ∧ p.file = file ∧
        p.exports.Distinct ∧
        List.Forall₂ (source.Carries dirs J) (Syntax.Stmt.listImports tree) p.files
    | .error _ J => I.Gains source dirs ((active ++ [file]).map Path.key) J := by
  induction levels generalizing active unit file tree I with
  | zero =>
      rw [resolveFile_eq]
      exact file_gathers (fun _ _ _ _ => Imports.Gains.nothing) tree I
  | succ levels ih =>
      rw [resolveFile_eq]
      refine file_gathers (fun path I hnew hactive => ?_) tree I
      show match importKept source dirs (levels + 1) (active ++ [file]) path I with
        | .ok p J => I.Gains source dirs ((active ++ [file]).map Path.key) J ∧
            J.lookup path.key = some p
        | .error _ J => I.Gains source dirs ((active ++ [file]).map Path.key) J
      rw [importKept_run]
      cases hload : source.load path with
      | error e => exact Imports.Gains.nothing
      | ok tree' =>
          have hpath := ih (active ++ [file]) (.library path.key) path tree' I
          have hfewer : (active ++ [file]).map Path.key ⊆
              (active ++ [file] ++ [path]).map Path.key := by
            have hsplit : (active ++ [file] ++ [path]).map Path.key =
                (active ++ [file]).map Path.key ++ [path].map Path.key := List.map_append
            rw [hsplit]
            exact List.subset_append_left _ _
          dsimp only
          cases hrun : resolveFile source dirs levels (active ++ [file]) (.library path.key) path
              tree' I with
          | error e J =>
              rw [hrun] at hpath
              exact hpath.fewer hfewer
          | ok p J =>
              rw [hrun] at hpath
              obtain ⟨hgains, hfile, hexports, hcarry⟩ := hpath
              have hnone : J.lookup path.key = none := (hgains.stays (by simp)).trans hnew
              exact ⟨.file (hgains.fewer hfewer) hnone hactive hfile hload hexports hcarry,
                List.lookup_cons_self⟩

/-- The next turn of a session. -/
def play (session : Session) (turn : Turn) : Except Fault Program × Session :=
  ({ session with source := turn.source }).resolve turn.tree turn.file

/-- The session after some turns; between them the files may become others. -/
def afterTurns (dirs : List Path) (turns : List Turn) : Session :=
  turns.foldl (fun session turn => (session.play turn).2) (start (MemoryFiles.source []) dirs)

/-- A turn adds to the imports, also if it fails, and the import statements of its main file carry
what is kept then. -/
theorem play_gains (session : Session) (turn : Turn) :
    session.imports.Gains turn.source session.searchPaths [] (session.play turn).2.imports ∧
      ∀ p, (session.play turn).1 = .ok p → p.exports.Distinct ∧
        List.Forall₂ (turn.source.Carries session.searchPaths (session.play turn).2.imports)
          (Syntax.Stmt.listImports turn.tree) p.files := by
  have hfile := @resolveFile_gains turn.source session.searchPaths (turn.source.count + 1) []
    (.main session.turn) turn.file turn.tree session.imports
  unfold play
  refine resolve_ends (Q := fun r I => session.imports.Gains turn.source session.searchPaths [] I ∧
    ∀ p, r = .ok p → p.exports.Distinct ∧
      List.Forall₂ (turn.source.Carries session.searchPaths I)
        (Syntax.Stmt.listImports turn.tree) p.files) ?_
  dsimp only
  split <;> rename_i hrun <;> rw [hrun] at hfile
  · refine ⟨hfile.1.fewer (List.nil_subset _), ?_⟩
    rintro _ ⟨⟩
    exact hfile.2.2
  · exact ⟨hfile.fewer (List.nil_subset _), nofun⟩

theorem searchPaths_play (session : Session) (turn : Turn) :
    (session.play turn).2.searchPaths = session.searchPaths := by
  unfold play Session.resolve
  dsimp only
  split <;> rfl

/-- The last turn is played in the session that the others have left. -/
theorem afterTurns_snoc (dirs : List Path) (turns : List Turn) (turn : Turn) :
    afterTurns dirs (turns ++ [turn]) = ((afterTurns dirs turns).play turn).2 := by
  rw [afterTurns, List.foldl_append]
  rfl

theorem searchPaths_afterTurns (dirs : List Path) (turns : List Turn) :
    (afterTurns dirs turns).searchPaths = dirs := by
  induction turns using List.reverseRecOn with
  | nil => rfl
  | append_singleton turns turn ih => rw [afterTurns_snoc, searchPaths_play, ih]

theorem turn_gains (dirs : List Path) (before : List Turn) (turn : Turn) :
    (afterTurns dirs before).imports.Gains turn.source dirs []
      (afterTurns dirs (before ++ [turn])).imports := by
  have hgains := (play_gains (afterTurns dirs before) turn).1
  rwa [searchPaths_afterTurns, ← afterTurns_snoc] at hgains

/-- By induction on the turns. -/
theorem closed_afterTurns (dirs : List Path) (turns : List Turn) :
    (afterTurns dirs turns).imports.Closed := by
  induction turns using List.reverseRecOn with
  | nil => exact .nil
  | append_singleton turns turn ih => exact ih.gains (turn_gains dirs turns turn)

/-- What is kept stays as it is while new files are put in front. -/
theorem imports_append (dirs : List Path) (before behind : List Turn) :
    ∃ news, (afterTurns dirs (before ++ behind)).imports =
      news ++ (afterTurns dirs before).imports := by
  induction behind using List.reverseRecOn with
  | nil => exact ⟨[], by rw [List.append_nil, List.nil_append]⟩
  | append_singleton behind turn ih =>
      obtain ⟨news, hnews⟩ := ih
      obtain ⟨more, hmore⟩ := (turn_gains dirs (before ++ behind) turn).exists_append
      exact ⟨more ++ news, by rw [← List.append_assoc, hmore, hnews, List.append_assoc]⟩

theorem lookup_append (dirs : List Path) (before behind : List Turn) {key : Path.Key} {p : Program}
    (hp : (afterTurns dirs before).imports.lookup key = some p) :
    (afterTurns dirs (before ++ behind)).imports.lookup key = some p := by
  obtain ⟨news, hnews⟩ := imports_append dirs before behind
  refine (closed_afterTurns dirs (before ++ behind)).lookup ?_
  rw [hnews]
  exact List.mem_append_right _ (mem_of_lookup hp)

/-- Turns in which the files stay what they are make a session over these files. -/
theorem afterTurns_of_mains (source : FileSource) (dirs : List Path)
    (mains : List (Syntax.Program × Path)) :
    { afterTurns dirs (mains.map fun main => ⟨source, main.1, main.2⟩) with source := source } =
      afterMains source dirs mains := by
  induction mains using List.reverseRecOn with
  | nil => rfl
  | append_singleton mains main ih =>
      have hlast : afterMains source dirs (mains ++ [main]) =
          ((afterMains source dirs mains).resolve main.1 main.2).2 := by
        rw [afterMains, List.foldl_append]
        rfl
      have hsource : (afterMains source dirs mains).source = source := by rw [← ih]
      rw [List.map_append, List.map_singleton, afterTurns_snoc, hlast, play, ih]
      unfold Session.resolve
      dsimp only
      split <;> simp [hsource]

/-! ## Import statements -/

/-- In some turn of a session a tree was resolved to a program, with imports from the source: as the
main file of the turn, or as a file that was kept then. -/
inductive Resolved (dirs : List Path) (turns : List Turn) :
    FileSource → Syntax.Program → Program → Prop
  | main {before behind : List Turn} {turn : Turn} {p : Program}
      (split : turns = before ++ turn :: behind)
      (run : ((afterTurns dirs before).play turn).1 = .ok p) : Resolved dirs turns turn.source turn.tree p
  | kept {before behind : List Turn} {turn : Turn} {tree : Syntax.Program} {p : Program}
      (split : turns = before ++ turn :: behind)
      (new : (p.file.key, p) ∉ (afterTurns dirs before).imports)
      (kept : (p.file.key, p) ∈ ((afterTurns dirs before).play turn).2.imports)
      (load : turn.source.load p.file = .ok tree) : Resolved dirs turns turn.source tree p

/-- In some turn of a session an import statement chose the path and carries the program. -/
def Imported (dirs : List Path) (turns : List Turn) (path : Path) (program : Program) : Prop :=
  ∃ (source : FileSource) (tree : Syntax.Program) (p : Program) (i : Nat) (name : String),
    Resolved dirs turns source tree p ∧
    (Syntax.Stmt.listImports tree)[i]? = some name ∧ source.target dirs name = some path ∧
    p.files[i]? = some program

variable {turns : List Turn} {tree : Syntax.Program} {p : Program}

/-- A file that was resolved in some turn was resolved in more of them. -/
theorem Resolved.append (h : Resolved dirs turns source tree p) (more : List Turn) :
    Resolved dirs (turns ++ more) source tree p := by
  cases h with
  | main split run =>
      exact .main (by rw [split, List.append_assoc, List.cons_append]) run
  | kept split new kept load =>
      exact .kept (by rw [split, List.append_assoc, List.cons_append]) new kept load

/-- The import statements of a resolved tree carry what the session keeps from then on. -/
theorem Resolved.carries (h : Resolved dirs turns source tree p) :
    (∃ turn ∈ turns, turn.source = source) ∧
      List.Forall₂ (source.Carries dirs (afterTurns dirs turns).imports)
        (Syntax.Stmt.listImports tree) p.files := by
  cases h with
  | @main before behind turn p split run =>
      have hcarries := ((play_gains (afterTurns dirs before) turn).2 p run).2
      rw [searchPaths_afterTurns, ← afterTurns_snoc] at hcarries
      refine ⟨⟨turn, by rw [split]; simp, rfl⟩, hcarries.imp ?_⟩
      rintro name program ⟨path, htarget, hlookup⟩
      rw [split, List.append_cons]
      exact ⟨path, htarget, lookup_append dirs _ behind hlookup⟩
  | @kept before behind turn tree p split new kept load =>
      rw [← afterTurns_snoc] at kept
      obtain ⟨tree', hload, hcarries⟩ := (turn_gains dirs before turn).origin new kept
      obtain rfl : tree' = tree := Except.ok.inj (hload.symm.trans load)
      refine ⟨⟨turn, by rw [split]; simp, rfl⟩, hcarries.imp ?_⟩
      rintro name program ⟨path, htarget, hlookup⟩
      rw [split, List.append_cons]
      exact ⟨path, htarget, lookup_append dirs _ behind hlookup⟩

/-- What is kept was resolved in some turn. -/
theorem exists_resolved (dirs : List Path) {turns : List Turn} {key : Path.Key} {p : Program}
    (hp : (key, p) ∈ (afterTurns dirs turns).imports) :
    ∃ source tree, source.load p.file = .ok tree ∧ Resolved dirs turns source tree p := by
  induction turns using List.reverseRecOn with
  | nil => cases hp
  | append_singleton turns turn ih =>
      have hkey := ((closed_afterTurns dirs (turns ++ [turn])).entry hp).1
      by_cases hold : (key, p) ∈ (afterTurns dirs turns).imports
      · obtain ⟨source, tree, hload, hresolved⟩ := ih hold
        exact ⟨source, tree, hload, hresolved.append [turn]⟩
      · obtain ⟨tree, hload, -⟩ := (turn_gains dirs turns turn).origin hold hp
        rw [afterTurns_snoc] at hp
        subst hkey
        exact ⟨turn.source, tree, hload, .kept rfl hold hp hload⟩

/-- An imported program is the one that is kept. -/
theorem Imported.kept {path : Path} {program : Program} (h : Imported dirs turns path program) :
    ∃ turn ∈ turns, turn.source.contains path = true ∧
      (afterTurns dirs turns).imports.lookup (turn.source.identity path).key = some program := by
  obtain ⟨source, tree, p, i, name, hresolved, hname, htarget, hprogram⟩ := h
  obtain ⟨⟨turn, hturn, rfl⟩, hcarries⟩ := hresolved.carries
  obtain ⟨hi, rfl⟩ := List.getElem?_eq_some_iff.mp hname
  obtain ⟨hi', rfl⟩ := List.getElem?_eq_some_iff.mp hprogram
  obtain ⟨path', htarget', hlookup⟩ := (List.forall₂_iff_get.mp hcarries).2 i hi hi'
  obtain rfl : path' = path := Option.some.inj (htarget'.symm.trans htarget)
  exact ⟨turn, hturn, FileSource.contains_of_target htarget, hlookup⟩

/-- Import statements that chose paths with the same components carry one program. -/
theorem Imported.shared (hagree : Turn.Agree turns) {path path' : Path} {program program' : Program}
    (h : Imported dirs turns path program) (h' : Imported dirs turns path' program')
    (hkey : path.key = path'.key) : program.Shared program' := by
  obtain ⟨turn, hturn, hcontains, hlookup⟩ := h.kept
  obtain ⟨turn', hturn', hcontains', hlookup'⟩ := h'.kept
  rw [hagree turn hturn turn' hturn' path path' hcontains hcontains' hkey, hlookup'] at hlookup
  obtain rfl := Option.some.inj hlookup
  exact Program.shared_self ((closed_afterTurns dirs turns).entry (mem_of_lookup hlookup')).2

/-- Over files on disk nothing has to be asked of the session: wherever import statements chose two
spellings of one path, they carry one program, and it is the one that the session keeps. -/
theorem Imported.shared_on_disk (tree : FileTree) (mains : List (Syntax.Program × Path))
    (hturns : turns = mains.map fun main => ⟨tree.source, main.1, main.2⟩) {path path' : Path}
    {program program' : Program} (h : Imported dirs turns path program)
    (h' : Imported dirs turns path' program') (hkey : path.key = path'.key) :
    program.Shared program' ∧
      (program.file.key, program) ∈ (afterMains tree.source dirs mains).imports := by
  have hsource : ∀ turn ∈ turns, turn.source = tree.source := by
    rw [hturns]
    intro turn hturn
    obtain ⟨main, -, rfl⟩ := List.mem_map.mp hturn
    rfl
  refine ⟨h.shared (Turn.agree_tree turns tree hsource) h' hkey, ?_⟩
  obtain ⟨turn, -, -, hlookup⟩ := h.kept
  have hmem := mem_of_lookup hlookup
  rw [← ((closed_afterTurns dirs turns).entry hmem).1, hturns] at hmem
  rw [← afterTurns_of_mains]
  exact hmem

/-- A session resolves each imported file once.  Every import statement of a file that is resolved
carries a program, and statements whose paths have the same components carry the same one, so they
mean the same structs and labels.  What is kept is never replaced, and was kept behind all that it
imports. -/
theorem imports_shared (dirs : List Path) (turns : List Turn) (hagree : Turn.Agree turns) :
    (∀ source tree p, Resolved dirs turns source tree p →
      List.Forall₂ (fun name program => ∃ path, source.target dirs name = some path ∧
        Imported dirs turns path program ∧
        (program.file.key, program) ∈ (afterTurns dirs turns).imports)
        (Syntax.Stmt.listImports tree) p.files) ∧
    (∀ path program path' program', Imported dirs turns path program →
      Imported dirs turns path' program' → path.key = path'.key → program.Shared program') ∧
    (∀ before behind, turns = before ++ behind → ∃ news,
      (afterTurns dirs turns).imports = news ++ (afterTurns dirs before).imports) ∧
    ((afterTurns dirs turns).imports.map Prod.fst).Nodup ∧
    ∀ newer key p older, (afterTurns dirs turns).imports = newer ++ (key, p) :: older →
      p.file.key = key ∧
      (∃ source tree, source.load p.file = .ok tree ∧ Resolved dirs turns source tree p) ∧
      ∀ q, Relation.TransGen (fun p q : Program => q ∈ p.files) p q → (q.file.key, q) ∈ older := by
  have hclosed := closed_afterTurns dirs turns
  refine ⟨?_, ?_, ?_, hclosed.nodup, ?_⟩
  · intro source tree p hresolved
    have hcarries := List.forall₂_iff_get.mp hresolved.carries.2
    refine List.forall₂_iff_get.mpr ⟨hcarries.1, fun i hi hi' => ?_⟩
    obtain ⟨path, htarget, hlookup⟩ := hcarries.2 i hi hi'
    have hmem := mem_of_lookup hlookup
    rw [← (hclosed.entry hmem).1] at hmem
    exact ⟨path, htarget, ⟨source, tree, p, i, _, hresolved, List.getElem?_eq_getElem hi, htarget,
      List.getElem?_eq_getElem hi'⟩, hmem⟩
  · intro path program path' program' h h' hkey
    exact h.shared hagree h' hkey
  · rintro before behind rfl
    exact imports_append dirs before behind
  · intro newer key p older heq
    have hmem : (key, p) ∈ (afterTurns dirs turns).imports := by
      rw [heq]
      simp
    exact ⟨(hclosed.entry hmem).1, exists_resolved dirs hmem, fun q hq => hclosed.reaches heq hq⟩

theorem eq_singleton_of_forall₂ {α β : Type} {R : α → β → Prop} {a : α} {bs : List β}
    (h : List.Forall₂ R [a] bs) : ∃ b, bs = [b] ∧ R a b := by
  cases h with
  | cons hfirst hrest =>
      cases hrest
      exact ⟨_, rfl, hfirst⟩

/-- A file that is imported by two spellings, the second time when it has become another file. -/
theorem imports_shared_changed :
    let library : Syntax.Program :=
      [.mk [] (.struct ⟨"s", .zero⟩ [⟨"x", .named "n8" .zero, .zero⟩]) .zero]
    let first : Turn :=
      ⟨MemoryFiles.source [(⟨"lib/c"⟩, library)], [.mk [] (.importFile ⟨"./c", .zero⟩) .zero], ⟨"m"⟩⟩
    let second : Turn :=
      ⟨MemoryFiles.source [(⟨"lib/c"⟩, [])], [.mk [] (.importFile ⟨"c", .zero⟩) .zero], ⟨"n"⟩⟩
    Turn.Agree [first, second] ∧
      ∃ p q c d, ((afterTurns [⟨"lib"⟩] []).play first).1 = .ok p ∧
        ((afterTurns [⟨"lib"⟩] [first]).play second).1 = .ok q ∧
        p.files = [c] ∧ q.files = [d] ∧ c.Shared d := by
  intro library first second
  have hagree : Turn.Agree [first, second] := Turn.agree_memory _ fun turn hturn => by
    rcases List.mem_pair.mp hturn with rfl | rfl <;> exact ⟨_, rfl⟩
  have hsame : (first.source.target [⟨"lib"⟩] "./c").map Path.key =
      (second.source.target [⟨"lib"⟩] "c").map Path.key := by decide +kernel
  have hfirst : ((afterTurns [⟨"lib"⟩] []).play first).1.isOk = true := by decide +kernel
  have hsecond : ((afterTurns [⟨"lib"⟩] [first]).play second).1.isOk = true := by decide +kernel
  obtain ⟨p, hp⟩ := exists_of_isOk hfirst
  obtain ⟨q, hq⟩ := exists_of_isOk hsecond
  obtain ⟨hcarry, hshared, -⟩ := imports_shared [⟨"lib"⟩] [first, second] hagree
  obtain ⟨c, hfiles, path, htarget, hc, -⟩ :=
    eq_singleton_of_forall₂ (hcarry _ _ _ (.main (show _ = [] ++ _ from rfl) hp))
  obtain ⟨d, hfiles', path', htarget', hd, -⟩ :=
    eq_singleton_of_forall₂ (hcarry _ _ _ (.main (show _ = [first] ++ _ from rfl) hq))
  rw [htarget, htarget'] at hsame
  exact ⟨hagree, p, q, c, d, hp, hq, hfiles, hfiles', hshared _ _ _ _ hc hd (Option.some.inj hsame)⟩

end Session

end ByteJump
