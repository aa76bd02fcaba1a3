import ByteJump.Proofs.Resolve.Binding
import ByteJump.Proofs.Resolve.Imports
import ByteJump.Proofs.Resolve.SameFile
import ByteJump.Session

set_option autoImplicit false

/-!
# Resolved files are sound

A resolved file is proper, it uses only labels of its own and labels that the files it imports
export, and it exports only labels of its own.  The files it imports are the ones that are kept,
one for each path, so that all who import a path mean the same file.

`Program.Sound` is what later stages rely on: a variable is used only where it is known, a label
only if it belongs to the file or to a file it imports, and every imported file is kept.  The
resolver is followed step by step with two invariants.  `Tracks` relates its state to what was
declared so far, and `Adds` says what a part of a file has added to that: variables, labels, and
imported files.  Behind an import the kept imports have grown, and what was sound stays sound, by
`Imports.Extends.sound`.  The result is `file_sound`, under the hypothesis that the imports of the
file deliver; that hypothesis is discharged by induction on the levels of imports.
-/

namespace ByteJump

/-! ## Scopes -/

namespace Scopes

/-- The label is declared in one of the scopes. -/
def DeclaresLabel (s : Scopes) (label : Label) : Prop :=
  ∃ frame ∈ s.frames, ∃ name, (name, label) ∈ frame.labels

theorem declaresLabel_of_find {s : Scopes} {scope : Nat} {name : String} {label : Label}
    (h : s.findLabel scope name = some label) : s.DeclaresLabel label := by
  obtain ⟨scope', -, hscope⟩ := List.exists_of_findSome?_eq_some h
  cases hframe : s.frames[scope']? with
  | none => simp [hframe] at hscope
  | some frame =>
      rw [hframe] at hscope
      obtain ⟨before, behind, hlabels, -⟩ := List.lookup_eq_some_iff.mp hscope
      exact ⟨frame, Array.mem_of_getElem? hframe, name, by simp [hlabels]⟩

theorem mem_frames_modify {s : Scopes} {change : Frame → Frame} {frame : Frame}
    (h : frame ∈ (s.modify change).frames) :
    frame ∈ s.frames ∨ ∃ old ∈ s.frames, frame = change old := by
  obtain ⟨i, hi, hframe⟩ := Array.mem_iff_getElem.mp h
  simp only [modify, Array.size_modify] at hi
  simp only [modify, Array.getElem_modify] at hframe
  split at hframe
  · exact Or.inr ⟨_, Array.getElem_mem hi, hframe.symm⟩
  · exact Or.inl (hframe ▸ Array.getElem_mem hi)

theorem declares_modify {s : Scopes} {change : Frame → Frame} {v : Variable}
    (h : (s.modify change).Declares v) :
    s.Declares v ∨ ∃ old ∈ s.frames, ∃ name, (name, v) ∈ (change old).vars := by
  obtain ⟨frame, hframe, name, hmem⟩ := h
  rcases mem_frames_modify hframe with hold | ⟨old, hold, rfl⟩
  · exact Or.inl ⟨frame, hold, name, hmem⟩
  · exact Or.inr ⟨old, hold, name, hmem⟩

theorem declaresLabel_modify {s : Scopes} {change : Frame → Frame} {label : Label}
    (h : (s.modify change).DeclaresLabel label) :
    s.DeclaresLabel label ∨ ∃ old ∈ s.frames, ∃ name, (name, label) ∈ (change old).labels := by
  obtain ⟨frame, hframe, name, hmem⟩ := h
  rcases mem_frames_modify hframe with hold | ⟨old, hold, rfl⟩
  · exact Or.inl ⟨frame, hold, name, hmem⟩
  · exact Or.inr ⟨old, hold, name, hmem⟩

theorem declares_defineVariable {s : Scopes} {v w : Variable}
    (h : (s.defineVariable v).Declares w) : s.Declares w ∨ w = v := by
  rcases declares_modify h with hold | ⟨old, hold, name, hmem⟩
  · exact Or.inl hold
  · rcases List.mem_cons.mp hmem with heq | hmem
    · exact Or.inr (congrArg Prod.snd heq)
    · exact Or.inl ⟨old, hold, name, hmem⟩

theorem declaresLabel_defineVariable {s : Scopes} {v : Variable} {label : Label}
    (h : (s.defineVariable v).DeclaresLabel label) : s.DeclaresLabel label :=
  (declaresLabel_modify h).elim id fun ⟨old, hold, name, hmem⟩ => ⟨old, hold, name, hmem⟩

theorem declares_defineLabel {s : Scopes} {label : Label} {v : Variable}
    (h : (s.defineLabel label).Declares v) : s.Declares v :=
  (declares_modify h).elim id fun ⟨old, hold, name, hmem⟩ => ⟨old, hold, name, hmem⟩

theorem declaresLabel_defineLabel {s : Scopes} {label other : Label}
    (h : (s.defineLabel label).DeclaresLabel other) : s.DeclaresLabel other ∨ other = label := by
  rcases declaresLabel_modify h with hold | ⟨old, hold, name, hmem⟩
  · exact Or.inl hold
  · rcases List.mem_cons.mp hmem with heq | hmem
    · exact Or.inr (congrArg Prod.snd heq)
    · exact Or.inl ⟨old, hold, name, hmem⟩

theorem declares_defineType {s : Scopes} {name : String} {type : Ty} {v : Variable}
    (h : (s.defineType name type).Declares v) : s.Declares v :=
  (declares_modify h).elim id fun ⟨old, hold, name, hmem⟩ => ⟨old, hold, name, hmem⟩

theorem declaresLabel_defineType {s : Scopes} {name : String} {type : Ty} {label : Label}
    (h : (s.defineType name type).DeclaresLabel label) : s.DeclaresLabel label :=
  (declaresLabel_modify h).elim id fun ⟨old, hold, name, hmem⟩ => ⟨old, hold, name, hmem⟩

theorem declares_push {s : Scopes} {v : Variable} (h : s.push.Declares v) : s.Declares v := by
  obtain ⟨frame, hframe, name, hmem⟩ := h
  rcases Array.mem_push.mp hframe with hold | rfl
  · exact ⟨frame, hold, name, hmem⟩
  · cases hmem

theorem declaresLabel_push {s : Scopes} {label : Label} (h : s.push.DeclaresLabel label) :
    s.DeclaresLabel label := by
  obtain ⟨frame, hframe, name, hmem⟩ := h
  rcases Array.mem_push.mp hframe with hold | rfl
  · exact ⟨frame, hold, name, hmem⟩
  · cases hmem

theorem frames_pop (s : Scopes) : s.pop.frames = s.frames := by
  unfold pop
  split <;> rfl

theorem declares_pop {s : Scopes} {v : Variable} (h : s.pop.Declares v) : s.Declares v := by
  unfold Declares at h
  rwa [frames_pop] at h

theorem declaresLabel_pop {s : Scopes} {label : Label} (h : s.pop.DeclaresLabel label) :
    s.DeclaresLabel label := by
  unfold DeclaresLabel at h
  rwa [frames_pop] at h

/-- Nothing but types is declared before the first statement of a file. -/
theorem not_declares_ofBuiltins {b : Builtins} {v : Variable} : ¬ (ofBuiltins b).Declares v := by
  rintro ⟨frame, hframe, name, hmem⟩
  have heq : frame = ⟨b.named, [], [], [0]⟩ := by simpa [ofBuiltins] using hframe
  rw [heq] at hmem
  cases hmem

theorem not_declaresLabel_ofBuiltins {b : Builtins} {label : Label} :
    ¬ (ofBuiltins b).DeclaresLabel label := by
  rintro ⟨frame, hframe, name, hmem⟩
  have heq : frame = ⟨b.named, [], [], [0]⟩ := by simpa [ofBuiltins] using hframe
  rw [heq] at hmem
  cases hmem

end Scopes

/-! ## Sound programs -/

/-- The labels that stand in a file. -/
def Program.ownLabels (p : Program) : List Label := Stmt.listLabels p.statements

/-- The files that a file imports. -/
def Program.files (p : Program) : List Program := Stmt.listFiles p.statements

/-- The labels that a file may use: its own, and those that the files it imports export. -/
def Program.MayUse (p : Program) (label : Label) : Prop :=
  label ∈ p.ownLabels ∨ ∃ file ∈ p.files, label ∈ file.exports.labels

/-- A resolved file in order, among imports that are kept. -/
structure Program.Sound (I : Resolve.Imports) (p : Program) : Prop where
  proper : Stmt.ListProper [] p.statements
  labels : Stmt.ListLabelsIn p.MayUse p.statements
  exports : ∀ label ∈ p.exports.labels, label ∈ p.ownLabels
  files : ∀ file ∈ p.files, I.lookup file.file.key = some file

namespace Resolve

/-- All kept imports are in order, each under its own path. -/
def Imports.Sound (I : Imports) : Prop :=
  ∀ key p, I.lookup key = some p → p.file.key = key ∧ p.Sound I

/-- The imports only grow, and none of the active files gets in. -/
structure Imports.Extends (active : List Path) (I J : Imports) : Prop where
  kept : ∀ key p, I.lookup key = some p → J.lookup key = some p
  active : ∀ key ∈ active.map Path.key, J.lookup key = I.lookup key

variable {active : List Path} {I J K : Imports}

theorem Imports.Extends.refl (active : List Path) (I : Imports) : Imports.Extends active I I :=
  ⟨fun _ _ h => h, fun _ _ => rfl⟩

theorem Imports.Extends.trans (h : Imports.Extends active I J) (h' : Imports.Extends active J K) :
    Imports.Extends active I K :=
  ⟨fun key p hp => h'.kept key p (h.kept key p hp),
    fun key hkey => (h'.active key hkey).trans (h.active key hkey)⟩

theorem Imports.Extends.sound (h : Imports.Extends active I J) {p : Program} (hp : p.Sound I) :
    p.Sound J :=
  ⟨hp.proper, hp.labels, hp.exports, fun file hfile => h.kept _ _ (hp.files file hfile)⟩

/-! ## Parts of statements

The scopes of a file declare what the file has declared and what its imports export.  Each change
of the state that the resolver makes has a lemma here, named after the change. -/

/-- What the scopes and the exports of a file hold: known variables, and labels that are its own or
come from files it imports. -/
structure Tracks (known : List DeclId) (own : List Label) (files : List Program) (s : State) :
    Prop where
  vars : ∀ v, s.scopes.Declares v → v.id ∈ known
  labels : ∀ label, s.scopes.DeclaresLabel label →
    label ∈ own ∨ ∃ file ∈ files, label ∈ file.exports.labels
  exports : ∀ label ∈ s.exports.labels, label ∈ own

variable {known : List DeclId} {own : List Label} {files : List Program} {s : State}

theorem Tracks.start (b : Builtins) : Tracks [] [] [] (.start b) where
  vars _ h := absurd h Scopes.not_declares_ofBuiltins
  labels _ h := absurd h Scopes.not_declaresLabel_ofBuiltins
  exports _ h := nomatch h

theorem Tracks.declared (h : Tracks known own files s) (n : Nat) :
    Tracks known own files { s with declared := n } := ⟨h.vars, h.labels, h.exports⟩

theorem Tracks.pragmas (h : Tracks known own files s) (p : Pragmas) :
    Tracks known own files { s with pragmas := p } := ⟨h.vars, h.labels, h.exports⟩

/-- An inner scope declares nothing at first. -/
theorem Tracks.push (h : Tracks known own files s) :
    Tracks known own files { s with scopes := s.scopes.push } :=
  ⟨fun v hv => h.vars v (Scopes.declares_push hv),
    fun label hlabel => h.labels label (Scopes.declaresLabel_push hlabel), h.exports⟩

/-- What an inner scope has declared is forgotten, and that is harmless: less is declared. -/
theorem Tracks.pop (h : Tracks known own files s) :
    Tracks known own files { s with scopes := s.scopes.pop } :=
  ⟨fun v hv => h.vars v (Scopes.declares_pop hv),
    fun label hlabel => h.labels label (Scopes.declaresLabel_pop hlabel), h.exports⟩

theorem Tracks.defineType (h : Tracks known own files s) (name : String) (type : Ty) :
    Tracks known own files { s with scopes := s.scopes.defineType name type } :=
  ⟨fun v hv => h.vars v (Scopes.declares_defineType hv),
    fun label hlabel => h.labels label (Scopes.declaresLabel_defineType hlabel), h.exports⟩

/-- The variable is known from here on. -/
theorem Tracks.defineVariable (h : Tracks known own files s) (v : Variable) :
    Tracks (known ++ [v.id]) own files { s with scopes := s.scopes.defineVariable v } where
  vars w hw := by
    rcases Scopes.declares_defineVariable hw with hold | rfl
    · exact List.mem_append_left _ (h.vars w hold)
    · simp
  labels label hlabel := h.labels label (Scopes.declaresLabel_defineVariable hlabel)
  exports := h.exports

/-- The label is one of the file's own. -/
theorem Tracks.defineLabel (h : Tracks known own files s) (label : Label) :
    Tracks known (own ++ [label]) files { s with scopes := s.scopes.defineLabel label } where
  vars v hv := h.vars v (Scopes.declares_defineLabel hv)
  labels other hother := by
    rcases Scopes.declaresLabel_defineLabel hother with hold | rfl
    · exact (h.labels other hold).imp (List.mem_append_left _) id
    · simp
  exports other hother := List.mem_append_left _ (h.exports other hother)

theorem Tracks.addLabel (h : Tracks known own files s) {label : Label} (hlabel : label ∈ own) :
    Tracks known own files { s with exports := s.exports.addLabel label } where
  vars := h.vars
  labels := h.labels
  exports other hother := by
    rcases List.mem_cons.mp hother with rfl | hother
    · exact hlabel
    · exact h.exports other (List.mem_of_mem_filter hother)

theorem Tracks.addStruct (h : Tracks known own files s) (d : StructDef) :
    Tracks known own files { s with exports := s.exports.addStruct d } :=
  ⟨h.vars, h.labels, h.exports⟩

theorem declares_foldr_defineType {structs : List StructDef} {scopes : Scopes} {v : Variable}
    (h : (structs.foldr (fun d s => s.defineType d.name d.type) scopes).Declares v) :
    scopes.Declares v := by
  induction structs with
  | nil => exact h
  | cons d structs ih => exact ih (Scopes.declares_defineType h)

theorem declaresLabel_foldr_defineType {structs : List StructDef} {scopes : Scopes} {label : Label}
    (h : (structs.foldr (fun d s => s.defineType d.name d.type) scopes).DeclaresLabel label) :
    scopes.DeclaresLabel label := by
  induction structs with
  | nil => exact h
  | cons d structs ih => exact ih (Scopes.declaresLabel_defineType h)

theorem declares_foldr_defineLabel {labels : List Label} {scopes : Scopes} {v : Variable}
    (h : (labels.foldr (fun label s => s.defineLabel label) scopes).Declares v) :
    scopes.Declares v := by
  induction labels with
  | nil => exact h
  | cons label labels ih => exact ih (Scopes.declares_defineLabel h)

theorem declaresLabel_foldr_defineLabel {labels : List Label} {scopes : Scopes} {label : Label}
    (h : (labels.foldr (fun label s => s.defineLabel label) scopes).DeclaresLabel label) :
    scopes.DeclaresLabel label ∨ label ∈ labels := by
  induction labels with
  | nil => exact Or.inl h
  | cons other labels ih =>
      rcases Scopes.declaresLabel_defineLabel h with hold | rfl
      · exact (ih hold).imp id (List.mem_cons_of_mem _)
      · exact Or.inr List.mem_cons_self

/-- The scopes with the exports of a file in them. -/
def merged (exports : Exports) (scopes : Scopes) : Scopes :=
  exports.labels.foldr (fun label s => s.defineLabel label)
    (exports.structs.foldr (fun d s => s.defineType d.name d.type) scopes)

/-- The labels that come into scope are exported by the imported file. -/
theorem Tracks.merge (h : Tracks known own files s) (p : Program) :
    Tracks known own (files ++ [p]) { s with scopes := merged p.exports s.scopes } where
  vars v hv := h.vars v (declares_foldr_defineType (declares_foldr_defineLabel hv))
  labels label hlabel := by
    rcases declaresLabel_foldr_defineLabel hlabel with hold | hnew
    · refine (h.labels label (declaresLabel_foldr_defineType hold)).imp id ?_
      rintro ⟨file, hfile, hmem⟩
      exact ⟨file, List.mem_append_left _ hfile, hmem⟩
    · exact Or.inr ⟨p, by simp, hnew⟩
  exports := h.exports

/-! ## Steps -/

/-- A fault leaves the kept imports in order. -/
def Spoils (c : Context) (I : Imports) (_ : Fault) (J : Imports) : Prop :=
  J.Sound ∧ I.Extends c.active J

/-- Part of a file that declares variables `d`, has labels `l` and imports files `f` was resolved,
from imports `I` on. -/
structure Adds (c : Context) (known : List DeclId) (own : List Label) (files : List Program)
    (I : Imports) (d : List DeclId) (l : List Label) (f : List Program) (t : State) (J : Imports) :
    Prop where
  tracks : Tracks (known ++ d) (own ++ l) (files ++ f) t
  sound : J.Sound
  grown : I.Extends c.active J
  files : ∀ p ∈ f, J.lookup p.file.key = some p

variable {c : Context} {α β : Type} {d : List DeclId} {l : List Label} {f : List Program}

/-- Nothing was imported. -/
theorem Adds.local (hsound : I.Sound) (h : Tracks (known ++ d) (own ++ l) files s) :
    Adds c known own files I d l [] s I :=
  ⟨by simpa using h, hsound, .refl _ _, by simp⟩

/-- What adds nothing keeps the invariant. -/
theorem Adds.none (hsound : I.Sound) (h : Tracks known own files s) :
    Adds c known own files I [] [] [] s I := .local hsound (by simpa using h)

/-- What comes behind a part that was resolved adds to it. -/
theorem Ends.adding {x : Resolving α} {known' : List DeclId} {own' : List Label}
    {files' : List Program} {d' : α → List DeclId} {l' : α → List Label} {f' : α → List Program}
    {Q : α → Prop} (h : Adds c known own files I d l f s J) (hknown : known ++ d = known')
    (hown : own ++ l = own') (hfiles : files ++ f = files')
    (hx : Ends x (fun a t K => Adds c known' own' files' J (d' a) (l' a) (f' a) t K ∧ Q a)
      (Spoils c J) s J) :
    Ends x (fun a t K => Adds c known own files I (d ++ d' a) (l ++ l' a) (f ++ f' a) t K ∧ Q a)
      (Spoils c I) s J := by
  subst hknown hown hfiles
  refine hx.mono ?_ ?_
  · rintro a t K ⟨hadds, ha⟩
    have htracks := hadds.tracks
    rw [List.append_assoc, List.append_assoc, List.append_assoc] at htracks
    refine ⟨⟨htracks, hadds.sound, h.grown.trans hadds.grown, fun p hp => ?_⟩, ha⟩
    rcases List.mem_append.mp hp with hp | hp
    · exact hadds.grown.kept _ _ (h.files p hp)
    · exact hadds.files p hp
  · rintro e K ⟨hsound, hgrown⟩
    exact ⟨hsound, h.grown.trans hgrown⟩

/-- A look at the state comes first. -/
theorem Ends.first {x : Resolving β} {g : β → Resolving α} {Q : β → Prop}
    {post : α → State → Imports → Prop} (hsound : I.Sound) (h : Looks x Q s)
    (hg : ∀ b, Q b → Ends (g b) post (Spoils c I) s I) : Ends (x >>= g) post (Spoils c I) s I :=
  Ends.look h (fun _ => ⟨hsound, .refl _ _⟩) hg

theorem Ends.declare {g : DeclId → Resolving α} {post : α → State → Imports → Prop}
    {raise : Fault → Imports → Prop}
    (h : ∀ id, Ends (g id) post raise { s with declared := s.declared + 1 } I) :
    Ends (Resolve.declare c >>= g) post raise s I :=
  Ends.bind (h _)

theorem Ends.updated {change : State → State} {g : PUnit → Resolving α}
    {post : α → State → Imports → Prop} {raise : Fault → Imports → Prop}
    (h : Ends (g ⟨⟩) post raise (change s) I) : Ends (modify change >>= g) post raise s I :=
  Ends.bind h

/-! ## Declarations -/

/-- By induction on the declarations.  An exported label is one of the file's own. -/
theorem declareLabels_adds : ∀ (decls : List Syntax.LabelDecl) {own : List Label} {s : State},
    Tracks known own files s → I.Sound →
    Ends (declareLabels c decls) (fun ls t J => Adds c known own files I [] ls [] t J ∧ True)
      (Spoils c I) s I
  | [], own, s, h, hsound => by
      rw [declareLabels]
      exact Ends.pure ⟨.none hsound h, trivial⟩
  | decl :: decls, own, s, h, hsound => by
      rw [declareLabels]
      refine Ends.declare fun id => Ends.updated ?_
      dsimp only
      have hlabel := (h.declared (s.declared + 1)).defineLabel
        ⟨id, decl.name, decl.exported, c.locate decl.span⟩
      have hrest : ∀ t, Tracks known (own ++ [⟨id, decl.name, decl.exported, c.locate decl.span⟩])
          files t → Ends (do
            let labels ← declareLabels c decls
            return ⟨id, decl.name, decl.exported, c.locate decl.span⟩ :: labels)
          (fun ls t J => Adds c known own files I [] ls [] t J ∧ True) (Spoils c I) t I := by
        intro t ht
        have hone : Adds c known own files I []
            [⟨id, decl.name, decl.exported, c.locate decl.span⟩] [] t I :=
          .local hsound (by simpa using ht)
        refine Ends.bind ((Ends.adding hone (List.append_nil _) rfl (List.append_nil _)
          (declareLabels_adds decls ht hsound)).mono ?_ ?_)
        · exact fun ls u K hadds => Ends.pure (by simpa using hadds)
        · exact fun _ _ he => he
      split
      · exact Ends.updated (hrest _ (hlabel.addLabel (by simp)))
      · exact hrest _ hlabel

/-- A struct adds a type and perhaps an export, and no variable and no label. -/
theorem defineStruct_adds (depth : Nat) (name : String) (fields : List Syntax.Field)
    (h : Tracks known own files s) (hsound : I.Sound) :
    Ends (defineStruct c depth name fields) (fun _ t J => Adds c known own files I [] [] [] t J ∧ True)
      (Spoils c I) s I := by
  unfold defineStruct
  refine Ends.first hsound (structFields_looks name fields [] s) fun fields' _ => ?_
  refine Ends.declare fun id => Ends.updated ?_
  have htype := (h.declared (s.declared + 1)).defineType name (StructDef.type ⟨id, name, fields'⟩)
  split
  · exact Ends.update ⟨.none hsound (htype.addStruct _), trivial⟩
  · exact Ends.pure ⟨.none hsound htype, trivial⟩

/-- A pragma changes how the file is placed, and nothing that is tracked. -/
theorem pragma_adds (depth : Nat) (name : String) (value : Option Syntax.Expr) (site : Location)
    (h : Tracks known own files s) (hsound : I.Sound) :
    Ends (pragma c depth name value site) (fun _ t J => Adds c known own files I [] [] [] t J ∧ True)
      (Spoils c I) s I := by
  have hspoils : ∀ e, Spoils c I e I := fun _ => ⟨hsound, .refl _ _⟩
  unfold pragma
  split
  · exact Ends.fail (hspoils _)
  split
  · refine Ends.first hsound (alignment_looks value site s) fun n _ => ?_
    exact Ends.update ⟨.none hsound (h.pragmas _), trivial⟩
  split
  · cases value with
    | some value => exact Ends.fail (hspoils _)
    | none => exact Ends.update ⟨.none hsound (h.pragmas _), trivial⟩
  · exact Ends.fail (hspoils _)

/-! ## Imports

The program that an import statement gives is kept, and behind the statement its exports are in
scope.  This is the only step at which the kept imports grow. -/

/-- Importing a file that is neither kept nor active keeps it, and the imports stay in order. -/
def Context.Delivers (c : Context) : Prop :=
  ∀ path I, I.Sound → I.lookup path.key = none → path.key ∉ c.active.map Path.key →
    match c.importFile path I with
    | .ok p J => J.Sound ∧ I.Extends c.active J ∧ J.lookup path.key = some p
    | .error _ J => J.Sound ∧ I.Extends c.active J

/-- A file found for an import statement is one that is kept from then on. -/
theorem importFound_delivers (hdelivers : c.Delivers) (path : Path) (hsound : I.Sound)
    (hactive : path.key ∉ c.active.map Path.key) :
    match importFound c path I with
    | .ok p J => J.Sound ∧ I.Extends c.active J ∧ J.lookup path.key = some p
    | .error _ J => J.Sound ∧ I.Extends c.active J := by
  rw [importFound_run]
  cases hlookup : I.lookup path.key with
  | some p => exact ⟨hsound, .refl _ _, hlookup⟩
  | none => exact hdelivers path I hsound hlookup hactive

/-- The file was kept before, or it is resolved now and delivered. -/
theorem importNamed_adds (hdelivers : c.Delivers) (name : String) (site : Location)
    (h : Tracks known own files s) (hsound : I.Sound) :
    Ends (importNamed c name site) (fun p t J => Adds c known own files I [] [] [p] t J ∧ True)
      (Spoils c I) s I := by
  have hspoiled : I.Sound ∧ I.Extends c.active I := ⟨hsound, .refl _ _⟩
  refine importNamed_ends (fun _ => hspoiled) (fun _ _ _ => hspoiled) fun path _ hidle => ?_
  have hfound := importFound_delivers hdelivers (c.source.identity path) hsound hidle
  cases hrun : importFound c (c.source.identity path) I with
  | error e J =>
      rw [hrun] at hfound
      exact hfound
  | ok p J =>
      rw [hrun] at hfound
      obtain ⟨hJ, hgrown, hp⟩ := hfound
      have hkey := (hJ _ p hp).1
      refine Ends.updated (Ends.pure ⟨⟨?_, hJ, hgrown, ?_⟩, trivial⟩)
      · simpa [merged] using h.merge p
      · intro q hq
        obtain rfl := List.mem_singleton.mp hq
        rw [hkey]
        exact hp

/-! ## Statements

A part of a statement that resolves to nothing declares, labels and imports nothing, hence the
variants for parts that may be absent.  The lists of declarations, labels and files are those of
the resolved program, so that what is tracked can be compared with it in the end. -/

/-- The variables that an action declares that may be absent. -/
def optionDeclared (a : Option Action) : List DeclId := (a.map Action.declared).getD []

/-- The labels that stand inside an action that may be absent. -/
def optionLabels (a : Option Action) : List Label := (a.map Action.ownLabels).getD []

/-- The files that an action imports that may be absent. -/
def optionFiles (a : Option Action) : List Program := (a.map Action.files).getD []

/-- An action that may be absent is proper where some variables are known. -/
def OptionProper (known : List DeclId) (a : Option Action) : Prop :=
  ∀ action, a = some action → action.Proper known

theorem finish_declared (labels : List Label) (a : Option Action) (site : Location) :
    Stmt.optionDeclared (finish labels a site) = optionDeclared a := by
  cases a with
  | some a => rfl
  | none =>
      unfold finish
      dsimp only
      split <;> rfl

theorem finish_labels (labels : List Label) (a : Option Action) (site : Location) :
    Stmt.optionLabels (finish labels a site) = labels ++ optionLabels a := by
  cases a with
  | some a => rfl
  | none =>
      unfold finish
      dsimp only
      split
      · rename_i hempty
        rw [List.isEmpty_iff.mp hempty]
        rfl
      · rfl

theorem finish_files (labels : List Label) (a : Option Action) (site : Location) :
    Stmt.optionFiles (finish labels a site) = optionFiles a := by
  cases a with
  | some a => rfl
  | none =>
      unfold finish
      dsimp only
      split <;> rfl

theorem finish_proper {labels : List Label} {a : Option Action} {site : Location}
    (h : OptionProper known a) : Stmt.OptionProper known (finish labels a site) := by
  cases a with
  | some a => exact h a rfl
  | none =>
      unfold finish
      dsimp only
      split <;> exact trivial

theorem listProper_toList_append {first : Option Stmt} {rest : List Stmt}
    (hfirst : Stmt.OptionProper known first)
    (hrest : Stmt.ListProper (known ++ Stmt.optionDeclared first) rest) :
    Stmt.ListProper known (first.toList ++ rest) := by
  cases first with
  | some s => exact ⟨hfirst, hrest⟩
  | none => simpa [Stmt.optionDeclared] using hrest

theorem listDeclared_toList_append (first : Option Stmt) (rest : List Stmt) :
    Stmt.listDeclared (first.toList ++ rest) = Stmt.optionDeclared first ++ Stmt.listDeclared rest := by
  cases first <;> rfl

theorem listLabels_toList_append (first : Option Stmt) (rest : List Stmt) :
    Stmt.listLabels (first.toList ++ rest) = Stmt.optionLabels first ++ Stmt.listLabels rest := by
  cases first <;> rfl

theorem listFiles_toList_append (first : Option Stmt) (rest : List Stmt) :
    Stmt.listFiles (first.toList ++ rest) = Stmt.optionFiles first ++ Stmt.listFiles rest := by
  cases first <;> rfl

theorem orNothing_declared (s : Syntax.Stmt) (resolved : Option Stmt) :
    (orNothing c s resolved).declared = Stmt.optionDeclared resolved := by
  cases resolved <;> rfl

theorem orNothing_ownLabels (s : Syntax.Stmt) (resolved : Option Stmt) :
    (orNothing c s resolved).ownLabels = Stmt.optionLabels resolved := by
  cases resolved <;> rfl

theorem orNothing_files (s : Syntax.Stmt) (resolved : Option Stmt) :
    (orNothing c s resolved).files = Stmt.optionFiles resolved := by
  cases resolved <;> rfl

theorem orNothing_proper {s : Syntax.Stmt} {resolved : Option Stmt}
    (h : Stmt.OptionProper known resolved) : (orNothing c s resolved).Proper known := by
  cases resolved with
  | some s => exact h
  | none => exact trivial

/-- An action that declares and imports nothing. -/
theorem Ends.plain {a : Action} (hsound : I.Sound) (h : Tracks known own files s)
    (hdeclared : a.declared = []) (hlabels : a.ownLabels = []) (hfiles : a.files = [])
    (hproper : a.Proper known) :
    Ends (Pure.pure (some a) : Resolving (Option Action))
      (fun a t J => Adds c known own files I (optionDeclared a) (optionLabels a) (optionFiles a) t J ∧
        OptionProper known a) (Spoils c I) s I := by
  refine Ends.pure ⟨?_, ?_⟩
  · simp only [optionDeclared, optionLabels, optionFiles, Option.map_some, Option.getD_some,
      hdeclared, hlabels, hfiles]
    exact .none hsound h
  · rintro _ ⟨⟩
    exact hproper

/-- A command of which no action is left. -/
theorem Ends.nothing {x : Resolving β} (h : Ends x (fun _ t J => Adds c known own files I [] [] [] t J
      ∧ True) (Spoils c I) s I) :
    Ends (x >>= fun _ => Pure.pure none)
      (fun a t J => Adds c known own files I (optionDeclared a) (optionLabels a) (optionFiles a) t J ∧
        OptionProper known a) (Spoils c I) s I := by
  refine h.andThen fun b t J hadds => Ends.pure ⟨hadds.1, ?_⟩
  rintro _ ⟨⟩

/-- What a look-up finds was declared. -/
theorem Tracks.finds (h : Tracks known own files s) {v : Variable} (hv : s.scopes.Finds v) :
    v.id ∈ known := h.vars v hv.declares

/-- An expression that is proper in the scopes is proper among the known variables. -/
theorem Tracks.proper (h : Tracks known own files s) {e : Expr} (he : e.Proper s.scopes.Finds) :
    e.Proper fun v => v.id ∈ known := he.mono fun _ => h.finds

/-- The size is known by then, so the array is declared and reserved. -/
theorem reserve_adds (name : Syntax.Name) (count : Nat) (element : Ty)
    (h : Tracks known own files s) (hsound : I.Sound) :
    Ends (do
        let id ← declare c
        let v : Variable :=
          ⟨id, name.text, .array element count, some count, c.locate name.span⟩
        updateScopes fun scopes => scopes.defineVariable v
        return some (.reserve v))
      (fun a t J => Adds c known own files I (optionDeclared a) (optionLabels a) (optionFiles a) t J ∧
        OptionProper known a) (Spoils c I) s I := by
  refine Ends.declare fun id => Ends.updated (Ends.pure ⟨.local hsound ?_, ?_⟩)
  · show Tracks (known ++ [id]) (own ++ []) files _
    rw [List.append_nil]
    exact (h.declared (s.declared + 1)).defineVariable
      ⟨id, name.text, .array element count, some count, c.locate name.span⟩
  · rintro _ ⟨⟩
    rfl

/-- A variable that takes the value of an expression may not occur in the expression. -/
theorem define_adds (depth : Nat) (site : Location) (name : Syntax.Name) (value : Syntax.Expr)
    (h : Tracks known own files s) (hsound : I.Sound) :
    Ends (action c depth site (.define name value))
      (fun a t J => Adds c known own files I (optionDeclared a) (optionLabels a) (optionFiles a) t J ∧
        OptionProper known a) (Spoils c I) s I := by
  rw [action]
  refine Ends.first hsound (expr_looks c value s) fun e he => ?_
  refine Ends.declare fun id => Ends.updated (Ends.pure ⟨.local hsound ?_, ?_⟩)
  · show Tracks (known ++ [id]) (own ++ []) files _
    rw [List.append_nil]
    exact (h.declared (s.declared + 1)).defineVariable ⟨id, name.text,
      if e.type.isLiteral then c.builtins.word .n128 else e.type, none, c.locate name.span⟩
  · rintro _ ⟨⟩
    exact h.proper he

/-- The size and the type of the elements come first, and declare nothing. -/
theorem defineArray_adds (depth : Nat) (site : Location) (name : Syntax.Name) (size : Syntax.Expr)
    (element : Option Syntax.TypeExpr) (h : Tracks known own files s) (hsound : I.Sound) :
    Ends (action c depth site (.defineArray name size element))
      (fun a t J => Adds c known own files I (optionDeclared a) (optionLabels a) (optionFiles a) t J ∧
        OptionProper known a) (Spoils c I) s I := by
  rw [action]
  refine Ends.first hsound (count_looks c size s) fun n _ => ?_
  cases element with
  | none => exact Ends.bind (Ends.pure (reserve_adds name n _ h hsound))
  | some element =>
      exact Ends.first hsound (typeExpr_looks c element s) fun type _ =>
        reserve_adds name n type h hsound

/-! ## Actions made of statements

What a block, a condition or a loop declares, labels and imports is what the statements in it do. -/

/-- The scope of the block is left behind its statements. -/
theorem Adds.block {ss : List Stmt} {t : State} {J : Imports}
    (h : Adds c known own files I (Stmt.listDeclared ss) (Stmt.listLabels ss) (Stmt.listFiles ss)
      t J) :
    Adds c known own files I (optionDeclared (some (.block ss))) (optionLabels (some (.block ss)))
      (optionFiles (some (.block ss))) { t with scopes := t.scopes.pop } J :=
  ⟨h.tracks.pop, h.sound, h.grown, h.files⟩

/-- Both branches are parts of the statement, the second one behind the first. -/
theorem Adds.branch {e : Expr} {taken : Syntax.Stmt} {r o : Option Stmt} {t : State} {J : Imports}
    (h : Adds c known own files I (Stmt.optionDeclared r ++ Stmt.optionDeclared o)
      (Stmt.optionLabels r ++ Stmt.optionLabels o) (Stmt.optionFiles r ++ Stmt.optionFiles o) t J) :
    Adds c known own files I (optionDeclared (some (.branch e (orNothing c taken r) o)))
      (optionLabels (some (.branch e (orNothing c taken r) o)))
      (optionFiles (some (.branch e (orNothing c taken r) o))) t J := by
  simp only [optionDeclared, optionLabels, optionFiles, Option.map_some, Option.getD_some,
    Action.declared, Action.ownLabels, Action.files, orNothing_declared, orNothing_ownLabels,
    orNothing_files]
  exact h

/-- The body of a loop is resolved once. -/
theorem Adds.loop {e : Expr} {body : Syntax.Stmt} {bodyFirst : Bool} {r : Option Stmt} {t : State}
    {J : Imports} (h : Adds c known own files I (Stmt.optionDeclared r) (Stmt.optionLabels r)
      (Stmt.optionFiles r) t J) :
    Adds c known own files I (optionDeclared (some (.loop e (orNothing c body r) bodyFirst)))
      (optionLabels (some (.loop e (orNothing c body r) bodyFirst)))
      (optionFiles (some (.loop e (orNothing c body r) bodyFirst))) t J := by
  simp only [optionDeclared, optionLabels, optionFiles, Option.map_some, Option.getD_some,
    Action.declared, Action.ownLabels, Action.files, orNothing_declared, orNothing_ownLabels,
    orNothing_files]
  exact h

/-- The second branch of a condition knows what the first one declares. -/
theorem optionProper_branch {e : Expr} {taken : Syntax.Stmt} {r o : Option Stmt}
    (hinteger : e.type.isInteger = true) (he : e.Proper fun v => v.id ∈ known)
    (hr : Stmt.OptionProper known r)
    (ho : Stmt.OptionProper (known ++ Stmt.optionDeclared r) o) :
    OptionProper known (some (.branch e (orNothing c taken r) o)) := by
  rintro _ ⟨⟩
  refine ⟨⟨hinteger, he⟩, orNothing_proper hr, ?_⟩
  rw [orNothing_declared]
  exact ho

theorem optionProper_loop {e : Expr} {body : Syntax.Stmt} {bodyFirst : Bool} {r : Option Stmt}
    (hinteger : e.type.isInteger = true) (he : e.Proper fun v => v.id ∈ known)
    (hr : Stmt.OptionProper known r) :
    OptionProper known (some (.loop e (orNothing c body r) bodyFirst)) := by
  rintro _ ⟨⟩
  exact ⟨⟨hinteger, he⟩, orNothing_proper hr⟩

mutual

/-- The labels of the statement are declared in front of its action. -/
theorem stmt_adds (hdelivers : c.Delivers) (depth : Nat) :
    ∀ (stx : Syntax.Stmt) {known : List DeclId} {own : List Label} {files : List Program} {s : State}
      {I : Imports}, Tracks known own files s → I.Sound →
      Ends (stmt c depth stx) (fun r t J => Adds c known own files I (Stmt.optionDeclared r)
        (Stmt.optionLabels r) (Stmt.optionFiles r) t J ∧ Stmt.OptionProper known r)
        (Spoils c I) s I
  | .mk decls command span, known, own, files, s, I, h, hsound => by
      rw [stmt]
      refine (declareLabels_adds decls h hsound).andThen ?_
      rintro ls t J ⟨hls, -⟩
      refine (Ends.adding hls rfl rfl rfl
        (declareLabels_adds (siteLabels command) hls.tracks hls.sound)).andThen ?_
      rintro more u K ⟨hmore, -⟩
      refine (Ends.adding hmore (List.append_nil _) rfl (List.append_nil _)
        (action_adds hdelivers depth (c.locate span) command ?_ hmore.sound)).andThen ?_
      · simpa using hmore.tracks
      · rintro a v L ⟨ha, hproper⟩
        refine Ends.pure ⟨?_, finish_proper hproper⟩
        rw [finish_declared, finish_labels, finish_files]
        exact ha

/-- By induction on the statements, each behind those in front of it. -/
theorem stmts_adds (hdelivers : c.Delivers) (depth : Nat) :
    ∀ (ss : List Syntax.Stmt) {known : List DeclId} {own : List Label} {files : List Program}
      {s : State} {I : Imports}, Tracks known own files s → I.Sound →
      Ends (stmts c depth ss) (fun r t J => Adds c known own files I (Stmt.listDeclared r)
        (Stmt.listLabels r) (Stmt.listFiles r) t J ∧ Stmt.ListProper known r) (Spoils c I) s I
  | [], known, own, files, s, I, h, hsound => by
      rw [stmts]
      exact Ends.pure ⟨.none hsound h, trivial⟩
  | stx :: ss, known, own, files, s, I, h, hsound => by
      rw [stmts]
      refine (stmt_adds hdelivers depth stx h hsound).andThen ?_
      rintro first t J ⟨hfirst, hproper⟩
      refine (Ends.adding hfirst rfl rfl rfl
        (stmts_adds hdelivers depth ss hfirst.tracks hfirst.sound)).andThen ?_
      rintro rest u K ⟨hrest, hproper'⟩
      refine Ends.pure ⟨?_, listProper_toList_append hproper hproper'⟩
      rw [listDeclared_toList_append, listLabels_toList_append, listFiles_toList_append]
      exact hrest

theorem optionalBranch_adds (hdelivers : c.Delivers) (depth : Nat) :
    ∀ (stx : Option Syntax.Stmt) {known : List DeclId} {own : List Label} {files : List Program}
      {s : State} {I : Imports}, Tracks known own files s → I.Sound →
      Ends (optionalBranch c depth stx) (fun r t J => Adds c known own files I (Stmt.optionDeclared r)
        (Stmt.optionLabels r) (Stmt.optionFiles r) t J ∧ Stmt.OptionProper known r)
        (Spoils c I) s I
  | none, known, own, files, s, I, h, hsound => by
      rw [optionalBranch]
      exact Ends.pure ⟨.none hsound h, trivial⟩
  | some stx, known, own, files, s, I, h, hsound => by
      rw [optionalBranch]
      refine (stmt_adds hdelivers depth stx h hsound).andThen ?_
      rintro r t J ⟨hr, hproper⟩
      refine Ends.pure ⟨?_, orNothing_proper hproper⟩
      rw [Stmt.optionDeclared, Stmt.optionLabels, Stmt.optionFiles, orNothing_declared,
        orNothing_ownLabels, orNothing_files]
      exact hr

/-- One case for each command. -/
theorem action_adds (hdelivers : c.Delivers) (depth : Nat) (site : Location) :
    ∀ (command : Syntax.Command) {known : List DeclId} {own : List Label} {files : List Program}
      {s : State} {I : Imports}, Tracks known own files s → I.Sound →
      Ends (action c depth site command)
        (fun a t J => Adds c known own files I (optionDeclared a) (optionLabels a) (optionFiles a) t J
          ∧ OptionProper known a) (Spoils c I) s I
  | .importFile file, known, own, files, s, I, h, hsound => by
      rw [action]
      refine (importNamed_adds hdelivers file.text site h hsound).andThen ?_
      rintro p t J ⟨hp, -⟩
      refine Ends.pure ⟨hp, ?_⟩
      rintro _ ⟨⟩
      trivial
  | .evaluate value, known, own, files, s, I, h, hsound
  | .goto value _, known, own, files, s, I, h, hsound => by
      rw [action]
      refine Ends.first hsound (expr_looks c value s) fun e he => ?_
      exact Ends.plain hsound h rfl rfl rfl (h.proper he)
  | .define name value, known, own, files, s, I, h, hsound =>
      define_adds depth site name value h hsound
  | .defineArray name size element, known, own, files, s, I, h, hsound =>
      defineArray_adds depth site name size element h hsound
  | .assign target value, known, own, files, s, I, h, hsound => by
      rw [action]
      refine Ends.first hsound (expr_looks c target s) fun e he => ?_
      refine Ends.first hsound (expr_looks c value s) fun f hf => ?_
      exact Ends.plain hsound h rfl rfl rfl ⟨h.proper he, h.proper hf⟩
  | .block body, known, own, files, s, I, h, hsound => by
      rw [action]
      refine Ends.updated ((stmts_adds hdelivers (depth + 1) body h.push hsound).andThen ?_)
      rintro ss t J ⟨hss, hproper⟩
      refine Ends.updated (Ends.pure ⟨hss.block, ?_⟩)
      rintro _ ⟨⟩
      exact hproper
  | .branch test taken otherwise, known, own, files, s, I, h, hsound => by
      rw [action]
      refine Ends.first hsound (condition_looks c test s) fun e he => ?_
      refine (stmt_adds hdelivers (depth + 1) taken h hsound).andThen ?_
      rintro r t J ⟨hr, hproper⟩
      refine (Ends.adding hr rfl rfl rfl
        (optionalBranch_adds hdelivers (depth + 1) otherwise hr.tracks hr.sound)).andThen ?_
      rintro o u K ⟨ho, hproper'⟩
      exact Ends.pure ⟨ho.branch, optionProper_branch he.1 (h.proper he.2) hproper hproper'⟩
  | .loop test body bodyFirst, known, own, files, s, I, h, hsound => by
      rw [action]
      refine Ends.first hsound (condition_looks c test s) fun e he => ?_
      refine (stmt_adds hdelivers (depth + 1) body h hsound).andThen ?_
      rintro r t J ⟨hr, hproper⟩
      exact Ends.pure ⟨hr.loop, optionProper_loop he.1 (h.proper he.2) hproper⟩
  | .struct name fields, known, own, files, s, I, h, hsound => by
      rw [action]
      exact Ends.nothing (defineStruct_adds depth name.text fields h hsound)
  | .words values, known, own, files, s, I, h, hsound => by
      rw [action]
      refine Ends.first hsound (exprList_looks c values s) fun es hes => ?_
      exact Ends.plain hsound h rfl rfl rfl (hes.mono fun _ => h.finds)
  | .pragma name value, known, own, files, s, I, h, hsound => by
      rw [action]
      exact Ends.nothing (pragma_adds depth name.text value site h hsound)

end

/-! ## Files

A file starts with nothing declared, and what its statements have added in the end is what the
file declares, labels and imports. -/

/-- A resolved file is in order, and so are all imports that are kept. -/
theorem file_sound (hdelivers : c.Delivers) (tree : Syntax.Program) (hsound : I.Sound) :
    match file c tree I with
    | .ok p J => p.file = c.file ∧ p.Sound J ∧ J.Sound ∧ I.Extends c.active J
    | .error _ J => J.Sound ∧ I.Extends c.active J := by
  refine file_ends (stmts_adds hdelivers 0 tree (Tracks.start c.builtins) hsound)
    (fun opened s J ss _ hend hbound => ?_)
    fun opened s J e hend _ => ⟨hend.1.sound, hend.1.grown⟩
  obtain ⟨hadds, hproper⟩ := hend
  have hbind := Stmt.bindList_fills s.scopes.findLabel opened
  rw [hbound] at hbind
  have hfills : Stmt.ListFills s.scopes.findLabel opened ss := hbind
  refine ⟨rfl, ⟨hfills.proper _ hproper, ?_, ?_, ?_⟩, hadds.sound, hadds.grown⟩
  · refine Stmt.ListLabelsIn.mono ?_ hfills.labels
    rintro label ⟨scope, name, hlabel⟩
    have hdeclared := hadds.tracks.labels label (Scopes.declaresLabel_of_find hlabel)
    rw [List.nil_append, List.nil_append, ← hfills.ownLabels, ← hfills.files] at hdeclared
    exact hdeclared
  · intro label hlabel
    have hown := hadds.tracks.exports label hlabel
    rw [List.nil_append, ← hfills.ownLabels] at hown
    exact hown
  · intro p hp
    refine hadds.files p ?_
    rw [← hfills.files]
    exact hp

end Resolve

end ByteJump
